import ByteJump.Proofs.Resolve.Sound

set_option autoImplicit false

/-!
# What import statements carry

An import statement that gets a program gets the one that is kept for the file it names.  While a
file is resolved the kept imports grow at the front, one file after the other: each file is new when
it is kept, and all that it imports is kept already.

`Gains` is the history of the kept imports while one file is resolved: a list of steps, each of
which adds a file that was not there, whose own imports are all there.  `Gathers c names x post`
says of a part of the resolver that its import statements are `names`, that the kept imports gain
while it runs, and that it takes in the programs kept under the files these names lead to.  As all
imports are gathered in the order of the text, the imports of a program can be read off its tree.
The declarations that a file exports are distinct, which is kept along the way.
-/

namespace ByteJump

/-- An import statement with the name carries the program that is kept for the file it names. -/
def FileSource.Carries (source : FileSource) (dirs : List Path) (I : Resolve.Imports)
    (name : String) (program : Program) : Prop :=
  ∃ path, source.target dirs name = some path ∧
    I.lookup (source.identity path).key = some program

/-- Structs and labels of different names. -/
structure Exports.Distinct (x : Exports) : Prop where
  structs : (x.structs.map StructDef.name).Nodup
  labels : (x.labels.map Label.name).Nodup

theorem Exports.Distinct.none : Exports.none.Distinct := ⟨.nil, .nil⟩

theorem Exports.Distinct.addStruct {x : Exports} (h : x.Distinct) (d : StructDef) :
    (x.addStruct d).Distinct := by
  refine ⟨?_, h.labels⟩
  refine List.nodup_cons.mpr ⟨fun hmem => ?_, h.structs.sublist (List.filter_sublist.map _)⟩
  obtain ⟨other, hother, hname⟩ := List.mem_map.mp hmem
  simpa [hname] using (List.mem_filter.mp hother).2

theorem Exports.Distinct.addLabel {x : Exports} (h : x.Distinct) (label : Label) :
    (x.addLabel label).Distinct := by
  refine ⟨h.structs, ?_⟩
  refine List.nodup_cons.mpr ⟨fun hmem => ?_, h.labels.sublist (List.filter_sublist.map _)⟩
  obtain ⟨other, hother, hname⟩ := List.mem_map.mp hmem
  simpa [hname] using (List.mem_filter.mp hother).2

namespace Resolve

/-! ## Imports that grow -/

/-- Files were added to the imports one after the other.  Each was loaded from the source and has a
key that was neither kept nor active, and its own imports carry what was kept before it. -/
inductive Imports.Gains (source : FileSource) (dirs : List Path) (active : List Path.Key)
    (I : Imports) : Imports → Prop
  | nothing : Gains source dirs active I I
  | file {J : Imports} {path : Path} {tree : Syntax.Program} {p : Program}
      (before : Gains source dirs active I J) (new : J.lookup path.key = none)
      (idle : path.key ∉ active) (path_eq : p.file = path) (load : source.load path = .ok tree)
      (exports : p.exports.Distinct)
      (carries : List.Forall₂ (source.Carries dirs J) (Syntax.Stmt.listImports tree) p.files) :
      Gains source dirs active I ((path.key, p) :: J)

section Gains

variable {source : FileSource} {dirs : List Path} {active : List Path.Key} {I J K : Imports}

theorem lookup_cons_of_new {key : Path.Key} {p : Program} (hnew : I.lookup key = none)
    {other : Path.Key} {q : Program} (hq : I.lookup other = some q) :
    List.lookup other ((key, p) :: I) = some q := by
  have hne : other ≠ key := by
    rintro rfl
    rw [hnew] at hq
    cases hq
  rw [List.lookup_cons, beq_false_of_ne hne]
  exact hq

/-- The steps of both. -/
theorem Imports.Gains.trans (h : I.Gains source dirs active J)
    (h' : Imports.Gains source dirs active J K) : I.Gains source dirs active K := by
  induction h' with
  | nothing => exact h
  | file _ new idle path_eq load exports carries ih =>
      exact .file ih new idle path_eq load exports carries

/-- Fewer files are active. -/
theorem Imports.Gains.fewer {fewer : List Path.Key} (h : I.Gains source dirs active J)
    (hfewer : fewer ⊆ active) : I.Gains source dirs fewer J := by
  induction h with
  | nothing => exact .nothing
  | file _ new idle path_eq load exports carries ih =>
      exact .file ih new (fun hmem => idle (hfewer hmem)) path_eq load exports carries

theorem Imports.Gains.exists_append (h : I.Gains source dirs active J) :
    ∃ news, J = news ++ I := by
  induction h with
  | nothing => exact ⟨[], rfl⟩
  | @file J path tree p _ _ _ _ _ _ _ ih =>
      obtain ⟨news, rfl⟩ := ih
      exact ⟨(path.key, p) :: news, rfl⟩

/-- What is kept stays kept. -/
theorem Imports.Gains.lookup (h : I.Gains source dirs active J) {key : Path.Key} {p : Program}
    (hp : I.lookup key = some p) : J.lookup key = some p := by
  induction h with
  | nothing => exact hp
  | file _ new _ _ _ _ _ ih => exact lookup_cons_of_new new ih

/-- A file that is being resolved is not kept meanwhile. -/
theorem Imports.Gains.stays (h : I.Gains source dirs active J) {key : Path.Key}
    (hkey : key ∈ active) : J.lookup key = I.lookup key := by
  induction h with
  | nothing => rfl
  | @file J path _ _ _ _ idle _ _ _ _ ih =>
      have hne : key ≠ path.key := fun heq => idle (heq ▸ hkey)
      rw [List.lookup_cons, beq_false_of_ne hne]
      exact ih

/-- Each step adds a new key. -/
theorem Imports.Gains.nodup (h : I.Gains source dirs active J) (hI : (I.map Prod.fst).Nodup) :
    (J.map Prod.fst).Nodup := by
  induction h with
  | nothing => exact hI
  | @file J path _ _ _ new _ _ _ _ _ ih =>
      refine List.nodup_cons.mpr ⟨fun hmem => ?_, ih⟩
      obtain ⟨entry, hentry, hkey⟩ := List.mem_map.mp hmem
      exact bne_iff_ne.mp (List.lookup_eq_none_iff.mp new entry hentry) hkey.symm

/-- What import statements carry they carry from then on. -/
theorem Imports.Gains.carries (h : I.Gains source dirs active J) {other : FileSource}
    {name : String} {p : Program} (hp : other.Carries dirs I name p) :
    other.Carries dirs J name p := by
  obtain ⟨path, htarget, hlookup⟩ := hp
  exact ⟨path, htarget, h.lookup hlookup⟩

theorem Imports.Gains.allCarry (h : I.Gains source dirs active J) {other : FileSource}
    {names : List String} {files : List Program}
    (hfiles : List.Forall₂ (other.Carries dirs I) names files) :
    List.Forall₂ (other.Carries dirs J) names files := hfiles.imp fun _ _ => h.carries

end Gains

/-! ## Gathering -/

/-- What is kept when the context is done with something, seen from what was kept before. -/
abbrev Context.Gains (c : Context) (I J : Imports) : Prop :=
  I.Gains c.source c.searchPaths (c.active.map Path.key) J

/-- The computation comes by import statements with the names.  It gathers the files they carry, and
the imports grow, also if there is a fault. -/
def Gathers {α : Type} (c : Context) (names : List String) (x : Resolving α)
    (post : α → List Program → Prop) : Prop :=
  ∀ s I, s.exports.Distinct →
    Ends x (fun a t J => t.exports.Distinct ∧ c.Gains I J ∧ ∃ files, post a files ∧
        List.Forall₂ (c.source.Carries c.searchPaths J) names files)
      (fun _ J => c.Gains I J) s I

variable {α β : Type} {c : Context} {names more : List String}

/-- The names of the first part come in front of those of the second one. -/
theorem Gathers.bind {x : Resolving β} {f : β → Resolving α} {mid : β → List Program → Prop}
    {post : α → List Program → Prop} (h : Gathers c names x mid)
    (hf : ∀ b files, mid b files → Gathers c more (f b) fun a rest => post a (files ++ rest)) :
    Gathers c (names ++ more) (x >>= f) post := by
  intro s I hs
  refine Ends.bind ((h s I hs).mono ?_ fun _ _ hgains => hgains)
  rintro b t J ⟨ht, hgains, files, hmid, hcarry⟩
  refine (hf b files hmid t J ht).mono ?_ fun _ _ hgains' => hgains.trans hgains'
  rintro a u K ⟨hu, hgains', rest, hpost, hcarry'⟩
  exact ⟨hu, hgains.trans hgains', files ++ rest, hpost,
    List.rel_append (hgains'.allCarry hcarry) hcarry'⟩

/-- Nothing is imported. -/
abbrev Nothing {α : Type} (_ : α) (files : List Program) : Prop := files = []

/-- A computation before which nothing is imported. -/
theorem Gathers.after {x : Resolving β} {f : β → Resolving α} {post : α → List Program → Prop}
    (h : Gathers c [] x Nothing) (hf : ∀ b, Gathers c names (f b) post) :
    Gathers c names (x >>= f) post := by
  refine h.bind fun b files hfiles => ?_
  subst hfiles
  exact hf b

/-- Without import statements nothing is gathered. -/
theorem Gathers.pure {a : α} {post : α → List Program → Prop} (h : post a []) :
    Gathers c [] (Pure.pure a) post :=
  fun _ _ hs => ⟨hs, .nothing, [], h, .nil⟩

/-- A computation behind which nothing is imported. -/
theorem Gathers.before {x : Resolving β} {f : β → Resolving α} {mid : β → List Program → Prop}
    {post : α → List Program → Prop} (h : Gathers c names x mid)
    (hf : ∀ b files, mid b files → Gathers c [] (f b) fun a rest => post a (files ++ rest)) :
    Gathers c names (x >>= f) post := by
  have hbind := h.bind hf
  rwa [List.append_nil] at hbind

/-- A value that is made of what was gathered. -/
theorem Gathers.map {x : Resolving β} {f : β → α} {mid : β → List Program → Prop}
    {post : α → List Program → Prop} (h : Gathers c names x mid)
    (hf : ∀ b files, mid b files → post (f b) files) :
    Gathers c names (x >>= fun b => Pure.pure (f b)) post :=
  h.before fun b files hmid => Gathers.pure (by rw [List.append_nil]; exact hf b files hmid)

theorem Gathers.update {f : State → State}
    (h : ∀ s, s.exports.Distinct → (f s).exports.Distinct) :
    Gathers c [] (modify f) Nothing :=
  fun s _ hs => ⟨h s hs, .nothing, [], rfl, .nil⟩

theorem Gathers.fail {e : Fault} {post : α → List Program → Prop} :
    Gathers c [] (fail e : Resolving α) post :=
  fun _ _ _ => Imports.Gains.nothing

/-- A look at the state imports nothing. -/
theorem Gathers.of_looks {x : Resolving α} {post : State → α → Prop}
    (h : ∀ s, Looks x (post s) s) : Gathers c [] x Nothing := by
  intro s I hs
  refine ((h s).ends I).mono ?_ ?_
  · rintro a t J ⟨-, rfl, rfl⟩
    exact ⟨hs, .nothing, [], rfl, .nil⟩
  · rintro e J ⟨-, rfl⟩
    exact .nothing

/-! ## Declarations

None of these has an import statement in it, but they add to the exports. -/

theorem declare_gathers : Gathers c [] (declare c) Nothing :=
  fun _ _ hs => ⟨hs, .nothing, [], rfl, .nil⟩

theorem updateScopes_gathers {change : Scopes → Scopes} :
    Gathers c [] (updateScopes change) Nothing :=
  Gathers.update fun _ hs => hs

/-- By induction on the declarations; each label is new, so the exports stay distinct. -/
theorem declareLabels_gathers : ∀ decls, Gathers c [] (declareLabels c decls) Nothing
  | [] => by
      rw [declareLabels]
      exact Gathers.pure rfl
  | decl :: decls => by
      rw [declareLabels]
      refine declare_gathers.after fun id => updateScopes_gathers.after fun _ => ?_
      have hrest : ∀ label : Label, Gathers c [] (do
          let labels ← declareLabels c decls
          return label :: labels) Nothing :=
        fun label => (declareLabels_gathers decls).after fun _ => Gathers.pure rfl
      dsimp only
      split
      · exact (Gathers.update fun _ hs => hs.addLabel _).after fun _ => hrest _
      · exact hrest _

theorem defineStruct_gathers (depth : Nat) (name : String) (fields : List Syntax.Field) :
    Gathers c [] (defineStruct c depth name fields) Nothing := by
  unfold defineStruct
  refine (Gathers.of_looks (structFields_looks name fields [])).after fun _ => ?_
  refine declare_gathers.after fun _ => updateScopes_gathers.after fun _ => ?_
  split
  · exact Gathers.update fun _ hs => hs.addStruct _
  · exact Gathers.pure rfl

theorem pragma_gathers (depth : Nat) (name : String) (value : Option Syntax.Expr)
    (site : Location) : Gathers c [] (pragma c depth name value site) Nothing := by
  unfold pragma
  split
  · exact Gathers.fail
  split
  · exact (Gathers.of_looks (alignment_looks value site)).after fun _ =>
      Gathers.update fun _ hs => hs
  split
  · cases value with
    | some value => exact Gathers.fail
    | none => exact Gathers.update fun _ hs => hs
  · exact Gathers.fail

theorem reserve_gathers (name : Syntax.Name) (count : Nat) (element : Ty) :
    Gathers c [] (do
        let id ← declare c
        let v : Variable :=
          ⟨id, name.text, .array element count, some count, c.locate name.span⟩
        updateScopes fun scopes => scopes.defineVariable v
        return some (Action.reserve v))
      (fun a files => optionFiles a = files) :=
  declare_gathers.after fun _ => updateScopes_gathers.after fun _ => Gathers.pure rfl

/-! ## Imports

The file that a name leads to is found and kept, or was kept before; in both cases it is kept
behind the statement. -/

/-- Importing a file that is neither kept nor active keeps it. -/
def Context.Keeps (c : Context) : Prop :=
  ∀ path I, I.lookup path.key = none → path.key ∉ c.active.map Path.key →
    match c.importFile path I with
    | .ok p J => c.Gains I J ∧ J.lookup path.key = some p
    | .error _ J => c.Gains I J

/-- A file found for an import statement is the one that is kept from then on. -/
theorem importFound_keeps (hkeeps : c.Keeps) (path : Path) (I : Imports)
    (hactive : path.key ∉ c.active.map Path.key) :
    match importFound c path I with
    | .ok p J => c.Gains I J ∧ J.lookup path.key = some p
    | .error _ J => c.Gains I J := by
  rw [importFound_run]
  cases hlookup : I.lookup path.key with
  | some p => exact ⟨.nothing, hlookup⟩
  | none => exact hkeeps path I hlookup hactive

/-- One name, and one program for it. -/
theorem importNamed_gathers (hkeeps : c.Keeps) (name : String) (site : Location) :
    Gathers c [name] (importNamed c name site) (fun p files => files = [p]) := by
  refine fun s I hs => importNamed_ends (fun _ => .nothing) (fun _ _ _ => .nothing)
    fun path htarget hidle => ?_
  have hfound := importFound_keeps hkeeps (c.source.identity path) I hidle
  cases hrun : importFound c (c.source.identity path) I with
  | error e J =>
      rw [hrun] at hfound
      exact hfound
  | ok p J =>
      rw [hrun] at hfound
      obtain ⟨hgains, hp⟩ := hfound
      exact Ends.updated (Ends.pure ⟨hs, hgains, [p], rfl, .cons ⟨path, htarget, hp⟩ .nil⟩)

/-! ## Statements -/

mutual

/-- The imports of a statement are those of its command. -/
theorem stmt_gathers (hkeeps : c.Keeps) (depth : Nat) :
    ∀ s, Gathers c (Syntax.Stmt.imports s) (stmt c depth s)
      (fun r files => Stmt.optionFiles r = files)
  | .mk decls command span => by
      rw [stmt]
      refine (declareLabels_gathers decls).after fun ls => ?_
      refine (declareLabels_gathers (siteLabels command)).after fun more => ?_
      refine (action_gathers hkeeps depth (c.locate span) command).map fun a files ha => ?_
      rw [finish_files, ha]

theorem stmts_gathers (hkeeps : c.Keeps) (depth : Nat) :
    ∀ ss, Gathers c (Syntax.Stmt.listImports ss) (stmts c depth ss)
      (fun r files => Stmt.listFiles r = files)
  | [] => by
      rw [stmts]
      exact Gathers.pure rfl
  | s :: ss => by
      rw [stmts]
      refine (stmt_gathers hkeeps depth s).bind fun first files hfirst => ?_
      refine (stmts_gathers hkeeps depth ss).map fun rest files' hrest => ?_
      rw [listFiles_toList_append, hfirst, hrest]

theorem optionalBranch_gathers (hkeeps : c.Keeps) (depth : Nat) :
    ∀ s, Gathers c (Syntax.Stmt.optionImports s) (optionalBranch c depth s)
      (fun r files => Stmt.optionFiles r = files)
  | none => by
      rw [optionalBranch]
      exact Gathers.pure rfl
  | some s => by
      rw [optionalBranch]
      refine (stmt_gathers hkeeps depth s).map fun r files hr => ?_
      rw [Stmt.optionFiles, orNothing_files, hr]

/-- One case for each command; those with statements inside gather what these do. -/
theorem action_gathers (hkeeps : c.Keeps) (depth : Nat) (site : Location) :
    ∀ command, Gathers c (Syntax.Command.imports command) (action c depth site command)
      (fun a files => optionFiles a = files)
  | .importFile file => by
      rw [action]
      refine (importNamed_gathers hkeeps file.text site).map fun p files hfiles => ?_
      exact hfiles.symm
  | .evaluate value | .goto value _ => by
      rw [action]
      exact (Gathers.of_looks (expr_looks c value)).after fun _ => Gathers.pure rfl
  | .define name value => by
      rw [action]
      refine (Gathers.of_looks (expr_looks c value)).after fun _ => ?_
      exact declare_gathers.after fun _ => updateScopes_gathers.after fun _ => Gathers.pure rfl
  | .defineArray name size element => by
      rw [action]
      refine (Gathers.of_looks (count_looks c size)).after fun n => ?_
      cases element with
      | none =>
          have hdefault : Gathers c [] (Pure.pure (c.builtins.word .n128)) Nothing :=
            Gathers.pure rfl
          exact hdefault.after fun type => reserve_gathers name n type
      | some element =>
          exact (Gathers.of_looks (typeExpr_looks c element)).after fun type =>
            reserve_gathers name n type
  | .assign target value => by
      rw [action]
      refine (Gathers.of_looks (expr_looks c target)).after fun _ => ?_
      exact (Gathers.of_looks (expr_looks c value)).after fun _ => Gathers.pure rfl
  | .block body => by
      rw [action]
      refine updateScopes_gathers.after fun _ => ?_
      refine (stmts_gathers hkeeps (depth + 1) body).before fun ss files hss => ?_
      exact updateScopes_gathers.after fun _ => Gathers.pure (by rw [List.append_nil, ← hss]; rfl)
  | .branch test taken otherwise => by
      rw [action]
      refine (Gathers.of_looks (condition_looks c test)).after fun _ => ?_
      refine (stmt_gathers hkeeps (depth + 1) taken).bind fun r files hr => ?_
      refine (optionalBranch_gathers hkeeps (depth + 1) otherwise).map fun o files' ho => ?_
      rw [← hr, ← ho, ← orNothing_files (c := c) taken r]
      rfl
  | .loop test body bodyFirst => by
      rw [action]
      refine (Gathers.of_looks (condition_looks c test)).after fun _ => ?_
      refine (stmt_gathers hkeeps (depth + 1) body).map fun r files hr => ?_
      rw [← hr, ← orNothing_files (c := c) body r]
      rfl
  | .struct name fields => by
      rw [action]
      exact (defineStruct_gathers depth name.text fields).after fun _ => Gathers.pure rfl
  | .words values => by
      rw [action]
      exact (Gathers.of_looks (exprList_looks c values)).after fun _ => Gathers.pure rfl
  | .pragma name value => by
      rw [action]
      exact (pragma_gathers depth name.text value site).after fun _ => Gathers.pure rfl

end

/-! ## Files -/

/-- The import statements of a resolved file carry its imports, in order. -/
theorem file_gathers (hkeeps : c.Keeps) (tree : Syntax.Program) (I : Imports) :
    match file c tree I with
    | .ok p J => c.Gains I J ∧ p.file = c.file ∧ p.exports.Distinct ∧
        List.Forall₂ (c.source.Carries c.searchPaths J) (Syntax.Stmt.listImports tree) p.files
    | .error _ J => c.Gains I J := by
  refine file_ends (stmts_gathers hkeeps 0 tree (.start c.builtins) I .none)
    (fun opened s J ss _ hend hbound => ?_) fun _ _ _ _ hend _ => hend.2.1
  obtain ⟨hexports, hgains, files, hfiles, hcarry⟩ := hend
  have hbind := Stmt.bindList_fills s.scopes.findLabel opened
  rw [hbound] at hbind
  have hfills : Stmt.ListFills s.scopes.findLabel opened ss := hbind
  refine ⟨hgains, rfl, hexports, ?_⟩
  show List.Forall₂ _ _ (Stmt.listFiles ss)
  rw [hfills.files, hfiles]
  exact hcarry

end Resolve

end ByteJump
