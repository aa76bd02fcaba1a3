import ByteJump.Proofs.Resolve.Imports
import ByteJump.Proofs.Resolve.SameFile
import ByteJump.Proofs.Sited.Tree

set_option autoImplicit false

/-!
# Places of faults in resolving

A fault in resolving a file is placed at a part of the file, or it is a fault of an import.  What a
file is resolved to has the places of its parts, and of the files it imports.

The places of a file are given by a predicate `among`, which holds of all the spans of its parts.
`ResolvesIn among x post` says that `x` keeps to it: what it answers with satisfies `post`, what
it fails with is placed among them, and the same holds for the imports that it keeps.  The lemmas
run along the functions of the resolver.  The hypothesis on a part is that the context covers its
spans, and it splits as the spans of the parts do.  Import statements are left to a hypothesis,
`DeliversSited`, that speaks of the file they name.
-/

namespace ByteJump.Resolve

variable {α β : Type} {among : Location → Prop} {c : Context}

/-- All places in the imports that are kept are among the given ones. -/
def Imports.SitesIn (among : Location → Prop) (I : Imports) : Prop :=
  ∀ entry ∈ I, entry.2.SitesIn among

/-- The computation ends with a value with `post`, or with a fault placed among the given places,
and so are all places in the imports that it keeps. -/
def ResolvesIn (among : Location → Prop) (x : Resolving α) (post : α → Prop) : Prop :=
  ∀ s I, I.SitesIn among → Ends x (fun a _ J => post a ∧ J.SitesIn among)
    (fun e J => e.SiteIn among ∧ J.SitesIn among) s I

/-- All parts of the file with these spans are among the given places. -/
def Context.Covers (c : Context) (among : Location → Prop) (spans : List Span) : Prop :=
  ∀ span ∈ spans, among (c.locate span)

/-- Loading a file has ended with all its places among the given ones, or with a fault at one of
them, and so are all places in the imports that are kept. -/
def LoadedIn (among : Location → Prop) : EStateM.Result Fault Imports Program → Prop
  | .ok p J => p.SitesIn among ∧ J.SitesIn among
  | .error e J => e.SiteIn among ∧ J.SitesIn among

/-- A file is loaded with all its places among the given ones, or with a fault at one of them. -/
def LoadsIn (among : Location → Prop) (x : Loading Program) : Prop :=
  ∀ I, Imports.SitesIn among I → LoadedIn among (x I)

/-- What the import statement with the name delivers has its places among the given ones. -/
def Context.DeliversSited (c : Context) (among : Location → Prop) (name : String) : Prop :=
  ∀ path, c.source.target c.searchPaths name = some path →
    LoadsIn among (c.importFile (c.source.identity path))

/-! ## Rules

The kept imports are an invariant on the way: every computation starts with kept imports that are
placed and hands on such.  So the rules only have to say what happens to the answer. -/

section Rules

variable {post : α → Prop} {M : β → Prop}

theorem ResolvesIn.pure {a : α} (h : post a) : ResolvesIn among (Pure.pure a) post :=
  fun _ _ hI => ⟨h, hI⟩

/-- A fault that is placed ends the computation properly. -/
theorem ResolvesIn.fail {e : Fault} (h : e.SiteIn among) :
    ResolvesIn among (fail e : Resolving α) post :=
  fun _ _ hI => ⟨h, hI⟩

/-- A fault at a place. -/
theorem ResolvesIn.failAt {e : Fault} {site : Location} (he : e.site? = some site)
    (h : among site) :
    ResolvesIn among (Resolve.fail e : Resolving α) post :=
  .fail (Fault.siteIn_of_some he h)

/-- The second part may use what holds of the answer of the first one. -/
theorem ResolvesIn.bind {x : Resolving β} {f : β → Resolving α} (h : ResolvesIn among x M)
    (hf : ∀ b, M b → ResolvesIn among (f b) post) : ResolvesIn among (x >>= f) post :=
  fun s I hI => (h s I hI).andThen fun b t J hb => hf b hb.1 t J hb.2

theorem ResolvesIn.get {f : State → Resolving α} (h : ∀ s, ResolvesIn among (f s) post) :
    ResolvesIn among (MonadState.get >>= f) post :=
  fun s I hI => Ends.bind (x := MonadState.get) (h s s I hI)

theorem ResolvesIn.update {f : State → State} : ResolvesIn among (modify f) fun _ => True :=
  fun _ _ hI => Ends.update ⟨trivial, hI⟩

theorem ResolvesIn.ofExcept {x : Except Fault α} (h : FaultsIn among x post) :
    ResolvesIn among (ofExcept x) post := by
  cases x with
  | ok a => exact .pure h
  | error e => exact .fail h

/-- Faults may be replaced by others that are placed as well. -/
theorem ResolvesIn.recast {x : Resolving α} {handle : Fault → Resolving α}
    (h : ResolvesIn among x post)
    (hfault : ∀ e, e.SiteIn among → ResolvesIn among (handle e) post) :
    ResolvesIn among (tryCatch x handle) post := by
  intro s I hI
  have hx := h s I hI
  unfold Ends at hx ⊢
  cases hxs : x s I with
  | ok a J =>
      have hrun : (tryCatch x handle) s I = .ok a J := by
        show EStateM.tryCatch (x s) (fun e => handle e s) I = _
        simp only [EStateM.tryCatch, hxs]
      rw [hxs] at hx
      rw [hrun]
      exact hx
  | error e J =>
      have hrun : (tryCatch x handle) s I = handle e s J := by
        show EStateM.tryCatch (x s) (fun e => handle e s) I = _
        simp only [EStateM.tryCatch, hxs]
        rfl
      rw [hxs] at hx
      rw [hrun]
      exact hfault e hx.1 s J hx.2

end Rules

theorem Context.Covers.cons {span : Span} {spans : List Span} :
    c.Covers among (span :: spans) ↔ among (c.locate span) ∧ c.Covers among spans :=
  List.forall_mem_cons

/-- Covering is a statement about each span, so it splits with the list. -/
theorem Context.Covers.append {spans more : List Span} :
    c.Covers among (spans ++ more) ↔ c.Covers among spans ∧ c.Covers among more :=
  List.forall_mem_append

/-! ## Expressions and types -/

theorem expectInteger_sited {e : Expr} (h : e.SitesIn among) :
    ResolvesIn among (expectInteger e) fun _ => True := by
  unfold expectInteger
  split
  · exact .pure trivial
  · exact .failAt rfl h.site

mutual

theorem expr_sited : ∀ e : Syntax.Expr, c.Covers among e.spans →
    ResolvesIn among (expr c e) (Expr.SitesIn among)
  | .int value span, h | .str text span, h => by
      rw [expr]
      exact .pure (Context.Covers.cons.mp h).1
  | .variable name span, h => by
      rw [expr]
      refine .get fun s => ?_
      cases s.scopes.findVariable name with
      | none => exact .failAt rfl (Context.Covers.cons.mp h).1
      | some v => exact .pure (Context.Covers.cons.mp h).1
  | .label name span, h => by
      rw [expr]
      exact .get fun s => .pure (Context.Covers.cons.mp h).1
  | .cast operand target span, h => by
      rw [Syntax.Expr.spans, Context.Covers.cons, Context.Covers.append] at h
      rw [expr]
      refine (expr_sited operand h.2.1).bind fun e he => ?_
      exact (typeExpr_sited target h.2.2).bind fun type _ => .pure ⟨h.1, he⟩
  | .unary op operand span, h => by
      rw [Syntax.Expr.spans, Context.Covers.cons] at h
      rw [expr]
      refine (expr_sited operand h.2).bind fun e he => ?_
      exact (expectInteger_sited he).bind fun _ _ => .pure ⟨h.1, he⟩
  | .binary op left right span, h => by
      rw [Syntax.Expr.spans, Context.Covers.cons, Context.Covers.append] at h
      rw [expr]
      refine (expr_sited left h.2.1).bind fun e he => ?_
      refine (expr_sited right h.2.2).bind fun f hf => ?_
      split
      · exact .pure ⟨h.1, he, hf⟩
      · exact .failAt rfl h.1
  | .access base accessors span, h => by
      rw [Syntax.Expr.spans, Context.Covers.cons, Context.Covers.append] at h
      rw [expr]
      refine (expr_sited base h.2.1).bind fun e he => ?_
      exact (access_sited accessors h.1 h.2.2 e.type).bind fun p hp => .pure ⟨h.1, he, hp⟩

theorem access_sited {site : Location} : ∀ accessors : List Syntax.Accessor, among site →
    c.Covers among (Syntax.Accessor.listSpans accessors) → ∀ type,
      ResolvesIn among (access c site type accessors) fun p => Expr.AllSitesIn among p.2
  | [], _, _, type => by
      rw [access]
      exact .pure trivial
  | .call arguments :: rest, hsite, h, type => by
      rw [Syntax.Accessor.listSpans, Context.Covers.append] at h
      rw [access]
      exact (exprs_sited arguments h.1).bind fun _ _ => .failAt rfl hsite
  | .index index :: rest, hsite, h, type => by
      rw [Syntax.Accessor.listSpans, Context.Covers.append] at h
      rw [access]
      refine (expr_sited index h.1).bind fun e he => ?_
      refine (expectInteger_sited he).bind fun _ _ => ?_
      cases type with
      | object o => exact .failAt rfl hsite
      | array inner count =>
          exact (access_sited rest hsite h.2 inner).bind fun p hp => .pure ⟨he, hp⟩

theorem exprs_sited : ∀ es : List Syntax.Expr, c.Covers among (Syntax.Expr.listSpans es) →
    ResolvesIn among (exprs c es) fun _ => True
  | [], _ => by
      rw [exprs]
      exact .pure trivial
  | e :: es, h => by
      rw [Syntax.Expr.listSpans, Context.Covers.append] at h
      rw [exprs]
      exact (expr_sited e h.1).bind fun _ _ => exprs_sited es h.2

theorem typeExpr_sited : ∀ t : Syntax.TypeExpr, c.Covers among t.spans →
    ResolvesIn among (typeExpr c t) fun _ => True
  | .named name span, h => by
      rw [typeExpr]
      refine .get fun s => ?_
      cases s.scopes.findType name with
      | none => exact .failAt rfl (Context.Covers.cons.mp h).1
      | some type => exact .pure trivial
  | .array inner size span, h => by
      rw [Syntax.TypeExpr.spans, Context.Covers.cons, Context.Covers.append] at h
      rw [typeExpr]
      refine (typeExpr_sited inner h.2.1).bind fun type _ => ?_
      refine (expr_sited size h.2.2).bind fun e he => ?_
      refine (ResolvesIn.ofExcept (Constant.evaluate_sited Constant.unplaced_located he)).bind ?_
      exact fun _ _ => .pure trivial

end

theorem constant_sited {e : Syntax.Expr} (h : c.Covers among e.spans) :
    ResolvesIn among (constant c e) fun _ => True := by
  unfold constant
  refine (expr_sited e h).bind fun e he => ?_
  exact .ofExcept (Constant.evaluate_sited Constant.unplaced_located he)

theorem count_sited {e : Syntax.Expr} (h : c.Covers among e.spans) :
    ResolvesIn among (count c e) fun _ => True := by
  unfold count
  exact (constant_sited h).bind fun _ _ => .pure trivial

theorem condition_sited {e : Syntax.Expr} (h : c.Covers among e.spans) :
    ResolvesIn among (condition c e) (Expr.SitesIn among) := by
  unfold condition
  refine (expr_sited e h).bind fun e he => ?_
  exact (expectInteger_sited he).bind fun _ _ => .pure he

theorem exprList_sited : ∀ es : List Syntax.Expr, c.Covers among (Syntax.Expr.listSpans es) →
    ResolvesIn among (exprList c es) (Expr.AllSitesIn among)
  | [], _ => by
      rw [exprList]
      exact .pure trivial
  | e :: es, h => by
      rw [Syntax.Expr.listSpans, Context.Covers.append] at h
      rw [exprList]
      refine (expr_sited e h.1).bind fun x hx => ?_
      exact (exprList_sited es h.2).bind fun xs hxs => .pure ⟨hx, hxs⟩

/-! ## Declarations -/

theorem declare_sited : ResolvesIn among (declare c) fun _ => True := fun _ _ hI => ⟨trivial, hI⟩

theorem declareLabels_sited : ∀ decls, ResolvesIn among (declareLabels c decls) fun _ => True
  | [] => by
      rw [declareLabels]
      exact .pure trivial
  | decl :: decls => by
      rw [declareLabels]
      refine declare_sited.bind fun id _ => ?_
      refine ResolvesIn.bind .update fun _ _ => ?_
      dsimp only
      split
      · refine ResolvesIn.bind .update fun _ _ => ?_
        exact (declareLabels_sited decls).bind fun _ _ => .pure trivial
      · exact (declareLabels_sited decls).bind fun _ _ => .pure trivial

theorem structFields_sited (struct : String) : ∀ (fields : List Syntax.Field) done,
    c.Covers among (fields.flatMap Syntax.Field.spans) →
      ResolvesIn among (structFields c struct done fields) fun _ => True
  | [], done, _ => by
      rw [structFields]
      exact .pure trivial
  | field :: fields, done, h => by
      rw [List.flatMap_cons, Context.Covers.append, Syntax.Field.spans, Context.Covers.cons] at h
      rw [structFields]
      split
      · exact .failAt rfl h.1.1
      · exact (typeExpr_sited field.type h.1.2).bind fun _ _ =>
          structFields_sited struct fields _ h.2

theorem defineStruct_sited {depth : Nat} {name : String} {fields : List Syntax.Field}
    (h : c.Covers among (fields.flatMap Syntax.Field.spans)) :
    ResolvesIn among (defineStruct c depth name fields) fun _ => True := by
  unfold defineStruct
  refine (structFields_sited name fields [] h).bind fun _ _ => ?_
  refine declare_sited.bind fun _ _ => ResolvesIn.bind .update fun _ _ => ?_
  split
  · exact .update
  · exact .pure trivial

/-! ## Pragmas

A fault in the constant of a pragma is replaced by one at the pragma itself, and both of these are
places of the file. -/

theorem alignment_sited {value : Option Syntax.Expr} {site : Location} (hsite : among site)
    (h : c.Covers among ((value.map Syntax.Expr.spans).getD [])) :
    ResolvesIn among (alignment c value site) fun _ => True := by
  cases value with
  | none => exact .failAt rfl hsite
  | some value =>
      refine ResolvesIn.bind (M := fun _ => True)
        (ResolvesIn.recast (constant_sited h) fun e he => ?_) fun n _ => ?_
      · split
        · exact .failAt rfl hsite
        · exact .fail he
      · split
        · exact .pure trivial
        · exact .failAt rfl hsite

theorem pragma_sited {depth : Nat} {name : String} {value : Option Syntax.Expr} {site : Location}
    (hsite : among site) (h : c.Covers among ((value.map Syntax.Expr.spans).getD [])) :
    ResolvesIn among (pragma c depth name value site) fun _ => True := by
  unfold pragma
  split
  · exact .failAt rfl hsite
  split
  · exact (alignment_sited hsite h).bind fun _ _ => .update
  split
  · cases value with
    | some value => exact .failAt rfl hsite
    | none => exact .update
  · exact .failAt rfl hsite

/-! ## Imports

A file that was resolved before is kept with all its places; one that is resolved now has them by
hypothesis.  The other faults of an import statement are placed at the statement. -/

theorem Imports.SitesIn.lookup {I : Imports} (hI : I.SitesIn among) {key : Path.Key} {p : Program}
    (h : I.lookup key = some p) : p.SitesIn among := by
  obtain ⟨before, behind, hsplit, -⟩ := List.lookup_eq_some_iff.mp h
  exact hI (key, p) (hsplit ▸ List.mem_append_right _ List.mem_cons_self)

theorem importFound_sited {path : Path} (h : LoadsIn among (c.importFile path)) :
    LoadsIn among (importFound c path) := by
  intro I hI
  rw [importFound_run]
  cases hkept : I.lookup path.key with
  | some p => exact ⟨hI.lookup hkept, hI⟩
  | none => exact h I hI

/-- No file, a file that is being resolved, or a program whose places are given. -/
theorem importNamed_sited {name : String} {site : Location} (hsite : among site)
    (hname : c.DeliversSited among name) :
    ResolvesIn among (importNamed c name site) (Program.SitesIn among) := by
  intro s I hI
  refine importNamed_ends (fun _ => ⟨Fault.siteIn_of_some rfl hsite, hI⟩)
    (fun _ _ _ => ⟨Fault.siteIn_of_some rfl hsite, hI⟩) fun path htarget _ => ?_
  have hfound := importFound_sited (hname path htarget) I hI
  cases hrun : importFound c (c.source.identity path) I with
  | ok p J =>
      rw [hrun] at hfound
      exact Ends.bind (Ends.update (Ends.pure hfound))
  | error e J =>
      rw [hrun] at hfound
      exact hfound

/-! ## Statements

The span of a statement is one of its spans, and so are those of the parts inside; the recursion
hands each part the spans that are its own. -/

/-- A statement that does something, perhaps. -/
theorem finish_sitesIn {labels : List Label} {act : Option Action} {site : Location}
    (h : ∀ a ∈ act, a.SitesIn among) : Stmt.OptionSitesIn among (finish labels act site) := by
  cases act with
  | some act => exact h act rfl
  | none =>
      unfold finish
      dsimp only
      split <;> trivial

theorem ResolvesIn.some {a : Action} (h : a.SitesIn among) :
    ResolvesIn among (Pure.pure (Option.some a)) fun act => ∀ a ∈ act, a.SitesIn among := by
  refine .pure ?_
  rintro _ ⟨⟩
  exact h

theorem ResolvesIn.none :
    ResolvesIn among (Pure.pure Option.none) fun act => ∀ a ∈ act, Action.SitesIn among a := by
  refine .pure ?_
  rintro _ ⟨⟩

theorem orNothing_sitesIn {s : Syntax.Stmt} {resolved : Option Stmt}
    (h : Stmt.OptionSitesIn among resolved) : (orNothing c s resolved).SitesIn among := by
  cases resolved with
  | some resolved => exact h
  | none => trivial

mutual

/-- Labels first, then the action, whose site is that of the statement. -/
theorem stmt_sited (depth : Nat) : ∀ s : Syntax.Stmt, c.Covers among s.spans →
    (∀ name ∈ Syntax.Stmt.imports s, c.DeliversSited among name) →
      ResolvesIn among (stmt c depth s) (Stmt.OptionSitesIn among)
  | .mk decls command span, h, hnames => by
      rw [Syntax.Stmt.spans, Context.Covers.cons, Context.Covers.append] at h
      rw [stmt]
      refine (declareLabels_sited decls).bind fun labels _ => ?_
      refine (declareLabels_sited (siteLabels command)).bind fun more _ => ?_
      exact (action_sited depth command h.1 h.2.2 hnames).bind fun act hact =>
        .pure (finish_sitesIn hact)

theorem stmts_sited (depth : Nat) : ∀ ss : List Syntax.Stmt,
    c.Covers among (Syntax.Stmt.listSpans ss) →
    (∀ name ∈ Syntax.Stmt.listImports ss, c.DeliversSited among name) →
      ResolvesIn among (stmts c depth ss) (Stmt.ListSitesIn among)
  | [], _, _ => by
      rw [stmts]
      exact .pure trivial
  | s :: ss, h, hnames => by
      rw [Syntax.Stmt.listSpans, Context.Covers.append] at h
      rw [Syntax.Stmt.listImports, List.forall_mem_append] at hnames
      rw [stmts]
      refine (stmt_sited depth s h.1 hnames.1).bind fun first hfirst => ?_
      refine (stmts_sited depth ss h.2 hnames.2).bind fun rest hrest => .pure ?_
      refine Stmt.listSitesIn_append ?_ hrest
      cases first with
      | some first => exact ⟨hfirst, trivial⟩
      | none => trivial

theorem optionalBranch_sited (depth : Nat) : ∀ s : Option Syntax.Stmt,
    c.Covers among (Syntax.Stmt.optionSpans s) →
    (∀ name ∈ Syntax.Stmt.optionImports s, c.DeliversSited among name) →
      ResolvesIn among (optionalBranch c depth s) (Stmt.OptionSitesIn among)
  | none, _, _ => by
      rw [optionalBranch]
      exact .pure trivial
  | some s, h, hnames => by
      rw [optionalBranch]
      exact (stmt_sited depth s h hnames).bind fun resolved hresolved =>
        .pure (orNothing_sitesIn hresolved)

/-- One case for each command.  Commands made of statements hand the spans and the names of
imports inside on to the recursion. -/
theorem action_sited (depth : Nat) {site : Location} : ∀ command : Syntax.Command, among site →
    c.Covers among command.spans →
    (∀ name ∈ Syntax.Command.imports command, c.DeliversSited among name) →
      ResolvesIn among (action c depth site command) fun act => ∀ a ∈ act, a.SitesIn among
  | .importFile file, hsite, _, hnames => by
      rw [action]
      have hname := hnames file.text (List.mem_singleton.mpr rfl)
      exact (importNamed_sited hsite hname).bind fun p hp => .some hp
  | .evaluate value, _, h, _ => by
      rw [action]
      exact (expr_sited value h).bind fun e he => .some he
  | .goto target labels, _, h, _ => by
      rw [Syntax.Command.spans, Context.Covers.append] at h
      rw [action]
      exact (expr_sited target h.1).bind fun e he => .some he
  | .define name value, _, h, _ => by
      rw [Syntax.Command.spans, Context.Covers.cons] at h
      rw [action]
      refine (expr_sited value h.2).bind fun e he => ?_
      refine declare_sited.bind fun _ _ => ResolvesIn.bind .update fun _ _ => ?_
      exact .some ⟨h.1, he⟩
  | .defineArray name size element, _, h, _ => by
      rw [Syntax.Command.spans, Context.Covers.cons, Context.Covers.append] at h
      rw [action]
      refine (count_sited h.2.1).bind fun count _ => ?_
      have hreserve (t : Ty) : ResolvesIn among (do
          let id ← declare c
          let v : Variable := ⟨id, name.text, .array t count, Option.some count, c.locate name.span⟩
          updateScopes fun scopes => scopes.defineVariable v
          return Option.some (Action.reserve v)) fun act => ∀ a ∈ act, a.SitesIn among :=
        declare_sited.bind fun _ _ => ResolvesIn.bind .update fun _ _ => .some h.1
      cases element with
      | some element => exact (typeExpr_sited element h.2.2).bind fun t _ => hreserve t
      | none => exact hreserve _
  | .assign target value, _, h, _ => by
      rw [Syntax.Command.spans, Context.Covers.append] at h
      rw [action]
      refine (expr_sited target h.1).bind fun e he => ?_
      exact (expr_sited value h.2).bind fun f hf => .some ⟨he, hf⟩
  | .block body, _, h, hnames => by
      rw [action]
      refine ResolvesIn.bind .update fun _ _ => ?_
      refine (stmts_sited (depth + 1) body h hnames).bind fun ss hss => ?_
      exact ResolvesIn.bind .update fun _ _ => .some hss
  | .branch test taken otherwise, _, h, hnames => by
      rw [Syntax.Command.spans, Context.Covers.append, Context.Covers.append] at h
      rw [Syntax.Command.imports, List.forall_mem_append] at hnames
      rw [action]
      refine (condition_sited h.1).bind fun e he => ?_
      refine (stmt_sited (depth + 1) taken h.2.1 hnames.1).bind fun resolved hresolved => ?_
      refine (optionalBranch_sited (depth + 1) otherwise h.2.2 hnames.2).bind fun rest hrest => ?_
      exact .some ⟨he, orNothing_sitesIn hresolved, hrest⟩
  | .loop test body bodyFirst, _, h, hnames => by
      rw [Syntax.Command.spans, Context.Covers.append] at h
      rw [action]
      refine (condition_sited h.1).bind fun e he => ?_
      refine (stmt_sited (depth + 1) body h.2 hnames).bind fun resolved hresolved => ?_
      exact .some ⟨he, orNothing_sitesIn hresolved⟩
  | .struct name fields, _, h, _ => by
      rw [Syntax.Command.spans, Context.Covers.cons] at h
      rw [action]
      exact (defineStruct_sited h.2).bind fun _ _ => .none
  | .words values, _, h, _ => by
      rw [action]
      exact (exprList_sited values h).bind fun es hes => .some hes
  | .pragma name value, hsite, h, _ => by
      rw [Syntax.Command.spans, Context.Covers.cons] at h
      rw [action]
      exact (pragma_sited hsite h.2).bind fun _ _ => .none

end

/-! ## Files

The last step of a file binds its label uses, and a use without a label is a fault at the place of
the use. -/

/-- A resolved file has the places of its parts and of the files it imports, and a fault is at one
of these. -/
theorem file_sited {tree : Syntax.Program} (h : c.Covers among (Syntax.Stmt.listSpans tree))
    (hnames : ∀ name ∈ Syntax.Stmt.listImports tree, c.DeliversSited among name) :
    LoadsIn among (file c tree) := by
  intro I hI
  refine file_ends (stmts_sited 0 tree h hnames (.start c.builtins) I hI)
    (fun opened s J ss _ hend hbound => ?_) fun opened s J e hend hunbound => ?_
  · have hbind := Stmt.bindList_sited s.scopes.findLabel opened hend.1
    rw [hbound] at hbind
    exact ⟨hbind, hend.2⟩
  · have hbind := Stmt.bindList_sited s.scopes.findLabel opened hend.1
    exact ⟨hbind.fault hunbound, hend.2⟩

end ByteJump.Resolve
