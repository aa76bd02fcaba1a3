import ByteJump.Proofs.ImportGraph
import ByteJump.Proofs.Resolve.SameExpr
import ByteJump.Resolve.Stmt

set_option autoImplicit false

/-!
# The same file resolved twice

Statements resolved in two contexts of one file agree as long as their import statements do.  So
the only way in which the rest of a compilation can make a difference to a file is through the
programs that its imports give.

The two resolutions are compared under a `Bond`: a renaming on each side, under which the two
results are the same.  A lenient bond also allows the right side to refuse an import that the left
side gets through, which is what happens when the one file is resolved from inside a cycle and the
other from outside.  Each function of the resolver has a lemma `…_agrees`, by the rules for binds
and updates; the only hypothesis they take is that the contexts are of one file, and behind
`stmt_agrees` that the import statements inside agree, `Bond.ImportsAgree`.  `file_alike` closes
the recursion over the file; whoever resolves the imports discharges the hypothesis for them.
-/

namespace ByteJump

namespace Resolve

variable {b : Bond} {c d : Context}

/-! ## Parts of the state

A state has scopes, exports and pragmas.  An update of one of them is compared on that part alone,
the others being what they were on either side. -/

theorem updateScopes_agrees {f g : Scopes → Scopes}
    (h : ∀ s t, b.Via Scopes.rename s t → b.Via Scopes.rename (f s) (g t)) :
    Agrees b (fun _ _ => True) (updateScopes f) (updateScopes g) := by
  refine Agrees.update fun s t hst => ?_
  simp only [Bond.States, State.rename, State.mk.injEq] at hst ⊢
  exact ⟨h _ _ hst.1, hst.2⟩

theorem exportLabel_agrees {l m : Label} (h : b.Via Label.rename l m) :
    Agrees b (fun _ _ => True)
      (modify fun s => { s with exports := s.exports.addLabel l } : Resolving PUnit)
      (modify fun s => { s with exports := s.exports.addLabel m }) := by
  refine Agrees.update fun s t hst => ?_
  simp only [Bond.States, State.rename, State.mk.injEq] at hst ⊢
  refine ⟨hst.1, hst.2.1, ?_, hst.2.2.2⟩
  rw [← Exports.addLabel_rename, ← Exports.addLabel_rename, hst.2.2.1, h]

theorem exportStruct_agrees {x y : StructDef} (h : b.Via StructDef.rename x y) :
    Agrees b (fun _ _ => True)
      (modify fun s => { s with exports := s.exports.addStruct x } : Resolving PUnit)
      (modify fun s => { s with exports := s.exports.addStruct y }) := by
  refine Agrees.update fun s t hst => ?_
  simp only [Bond.States, State.rename, State.mk.injEq] at hst ⊢
  refine ⟨hst.1, hst.2.1, ?_, hst.2.2.2⟩
  rw [← Exports.addStruct_rename, ← Exports.addStruct_rename, hst.2.2.1, h]

theorem updatePragmas_agrees (f : Pragmas → Pragmas) :
    Agrees b (fun _ _ => True)
      (modify fun s => { s with pragmas := f s.pragmas } : Resolving PUnit)
      (modify fun s => { s with pragmas := f s.pragmas }) := by
  refine Agrees.update fun s t hst => ?_
  simp only [Bond.States, State.rename, State.mk.injEq] at hst ⊢
  exact ⟨hst.1, hst.2.1, hst.2.2.1, by rw [hst.2.2.2]⟩

/-- The identity of a declaration is its unit and its number in it, and the two units are bonded.
-/
theorem declare_agrees (hctx : b.Contexts c d) :
    Agrees b (b.Via DeclId.rename) (declare c) (declare d) := by
  unfold declare
  refine Agrees.get.bind fun s t hst => ?_
  simp only [Bond.States, State.rename, State.mk.injEq] at hst
  refine (Agrees.set ?_).bind fun _ _ _ => Agrees.pure ?_
  · simp [Bond.States, State.rename, hst]
  · simp [Bond.Via, DeclId.rename, hctx.unit, hst]

/-! ## Labels

The labels and structs of a file come into scope in one fold.  Renaming goes under it. -/

theorem foldr_defineType_rename {r : Renaming} (structs : List StructDef) (s : Scopes) :
    (structs.foldr (fun d s => s.defineType d.name d.type) s).rename r =
      (structs.map (StructDef.rename r)).foldr (fun d s => s.defineType d.name d.type)
        (s.rename r) := by
  induction structs with
  | nil => rfl
  | cons d structs ih =>
      rw [List.foldr_cons, List.map_cons, List.foldr_cons, ← ih]
      exact (Scopes.defineType_rename _ d.name d.type).symm

theorem foldr_defineLabel_rename {r : Renaming} (labels : List Label) (s : Scopes) :
    (labels.foldr (fun label s => s.defineLabel label) s).rename r =
      (labels.map (Label.rename r)).foldr (fun label s => s.defineLabel label) (s.rename r) := by
  induction labels with
  | nil => rfl
  | cons l labels ih =>
      rw [List.foldr_cons, List.map_cons, List.foldr_cons, ← ih]
      exact (Scopes.defineLabel_rename _ l).symm


/-- Labels that are the same up to renaming. -/
abbrev Bond.Labels (b : Bond) (ls ms : List Label) : Prop :=
  ls.map (Label.rename b.left) = ms.map (Label.rename b.right)

/-- By induction on the declarations, which are taken in the order they are written. -/
theorem declareLabels_agrees (hctx : b.Contexts c d) :
    ∀ decls, Agrees b b.Labels (declareLabels c decls) (declareLabels d decls)
  | [] => by
      rw [declareLabels, declareLabels]
      exact Agrees.pure rfl
  | decl :: decls => by
      rw [declareLabels, declareLabels]
      refine (declare_agrees hctx).bind fun id id' hid => ?_
      have hlabel : b.Via Label.rename ⟨id, decl.name, decl.exported, c.locate decl.span⟩
          ⟨id', decl.name, decl.exported, d.locate decl.span⟩ := by
        simp only [Bond.Via, Label.rename]
        rw [hid, hctx.locate]
      refine (updateScopes_agrees fun s t hst => ?_).bind fun _ _ _ => ?_
      · rw [Bond.Via, ← Scopes.defineLabel_rename, ← Scopes.defineLabel_rename, hst, hlabel]
      have hrest : Agrees b b.Labels
          (do
            let labels ← declareLabels c decls
            return ⟨id, decl.name, decl.exported, c.locate decl.span⟩ :: labels)
          (do
            let labels ← declareLabels d decls
            return ⟨id', decl.name, decl.exported, d.locate decl.span⟩ :: labels) :=
        (declareLabels_agrees hctx decls).bind fun ls ms hls =>
          Agrees.pure (by simp [Bond.Labels, hlabel, hls])
      dsimp only
      split
      · exact (exportLabel_agrees hlabel).bind fun _ _ _ => hrest
      · exact hrest

/-! ## Imports

An import statement asks for a path, refuses a file that is being resolved, and otherwise takes
the kept program or resolves the file.  What it then merges into the scope is what the program
exports, so agreeing on the program is enough. -/

/-- The declarations a file exports are declared in the same order. -/
theorem merge_agrees {x y : Exports} (h : b.Via Exports.rename x y) :
    Agrees b (fun _ _ => True) (merge x) (merge y) := by
  have hstructs : x.structs.map (StructDef.rename b.left) = y.structs.map (StructDef.rename b.right) :=
    congrArg Exports.structs h
  have hlabels : x.labels.map (Label.rename b.left) = y.labels.map (Label.rename b.right) :=
    congrArg Exports.labels h
  refine updateScopes_agrees fun s t hst => ?_
  dsimp only
  rw [Bond.Via, foldr_defineLabel_rename, foldr_defineLabel_rename, hlabels,
    foldr_defineType_rename, foldr_defineType_rename, hstructs, hst]

theorem exports_via {p q : Program} (h : b.Via Program.rename p q) :
    b.Via Exports.rename p.exports q.exports := by
  cases p
  cases q
  exact congrArg Program.exports h

/-- What an import statement does once its file is found and is not being resolved. -/
def importFound (c : Context) (path : Path) : Loading Program := do
  match (← get).lookup path.key with
  | some program => return program
  | none => c.importFile path

theorem importFound_run (c : Context) (path : Path) (I : Imports) :
    importFound c path I =
      match I.lookup path.key with
      | some program => .ok program I
      | none => c.importFile path I := by
  unfold importFound
  show EStateM.bind EStateM.get _ I = _
  have hget : (EStateM.get : Loading Imports) I = .ok I I := rfl
  unfold EStateM.bind
  rw [hget]
  dsimp only
  cases I.lookup path.key <;> rfl

/-- What the two sides do about a file that an import statement names: both refuse it as being
resolved, or the right one does in a lenient comparison, or both get its program. -/
inductive Bond.Finds (b : Bond) (c d : Context) (identity : Path) : Prop where
  | cycle (left : c.active.any (fun file => file.same identity) = true)
      (right : d.active.any (fun file => file.same identity) = true)
      (same : c.active.map b.left.path = d.active.map b.right.path)
  | refused (lenient : b.lenient) (right : d.active.any (fun file => file.same identity) = true)
  | program (left : c.active.any (fun file => file.same identity) = false)
      (right : d.active.any (fun file => file.same identity) = false)
      (loads : LoadsAlike b (b.Via Program.rename) (importFound c identity)
        (importFound d identity))

/-- An import statement agrees when the file it names is found alike. -/
theorem importNamed_agrees (hpaths : c.searchPaths = d.searchPaths) (hsource : c.source = d.source)
    {name : String} {site site' : Location} (hsite : b.Via Location.rename site site')
    (h : ∀ path, d.source.target d.searchPaths name = some path →
      b.Finds c d (d.source.identity path)) :
    Agrees b (b.Via Program.rename) (importNamed c name site) (importNamed d name site') := by
  unfold importNamed
  rw [hpaths, hsource]
  unfold FileSource.target at h
  dsimp only
  cases hfind : (d.searchPaths.map fun dir => dir.join name).find? d.source.contains with
  | none =>
      refine Agrees.fail (Or.inr ?_)
      simp only [Fault.rename]
      rw [hsite, b.same_path]
  | some path =>
      dsimp only
      cases h path hfind with
      | cycle left right same =>
          rw [if_pos left, if_pos right]
          refine Agrees.fail (Or.inr ?_)
          simp only [Fault.rename, List.map_append, List.map_cons, List.map_nil]
          rw [hsite, same, b.same_path]
      | refused lenient right =>
          rw [if_pos right]
          intro s t _ I _
          exact ⟨rfl, Or.inl lenient⟩
      | program left right loads =>
          rw [if_neg (by simp [left]), if_neg (by simp [right])]
          refine (Agrees.lift loads).bind fun p q hpq => ?_
          exact (merge_agrees (exports_via hpq)).bind fun _ _ _ => Agrees.pure hpq

/-! ## Structs and pragmas

The constants in a pragma are computed here and now.  They mention no declaration that could be
renamed, so the two sides compute the same number or fail alike. -/

/-- Fields that are the same up to renaming. -/
abbrev Bond.Fields (b : Bond) (xs ys : List (String × Ty)) : Prop :=
  xs.map (fun field => (field.1, field.2.rename b.left)) =
    ys.map (fun field => (field.1, field.2.rename b.right))

/-- By induction on the fields that are left, with those done so far bonded. -/
theorem structFields_agrees (hctx : b.Contexts c d) (struct : String) :
    ∀ fields {xs ys : List (String × Ty)}, b.Fields xs ys →
      Agrees b b.Fields (structFields c struct xs fields) (structFields d struct ys fields)
  | [], xs, ys, h => by
      rw [structFields, structFields]
      refine Agrees.pure ?_
      rw [Bond.Fields, List.map_reverse, List.map_reverse, h]
  | field :: fields, xs, ys, h => by
      have hnames : xs.map Prod.fst = ys.map Prod.fst := by
        have hfst := congrArg (List.map Prod.fst) h
        simpa [List.map_map, Function.comp_def] using hfst
      have hany : (xs.any fun other => other.1 = field.name) =
          ys.any fun other => other.1 = field.name := by
        have hmap : ∀ zs : List (String × Ty), (zs.any fun other => other.1 = field.name) =
            (zs.map Prod.fst).any fun name => name = field.name := by
          intro zs
          rw [List.any_map]
          rfl
        rw [hmap, hmap, hnames]
      rw [structFields, structFields, hany]
      split
      · refine Agrees.fail (Or.inr ?_)
        simp only [Fault.rename]
        rw [hctx.locate]
      · refine (typeExpr_agrees hctx field.type).bind fun x y hxy => ?_
        refine structFields_agrees hctx struct fields ?_
        simp [Bond.Fields, hxy, h]

theorem defineStruct_agrees (hctx : b.Contexts c d) (depth : Nat) (name : String)
    (fields : List Syntax.Field) :
    Agrees b (fun _ _ => True) (defineStruct c depth name fields)
      (defineStruct d depth name fields) := by
  unfold defineStruct
  have hnone : b.Fields [] [] := rfl
  refine (structFields_agrees hctx name fields hnone).bind fun xs ys hxs => ?_
  refine (declare_agrees hctx).bind fun id id' hid => ?_
  have hstruct : b.Via StructDef.rename ⟨id, name, xs⟩ ⟨id', name, ys⟩ := by
    simp only [Bond.Via, StructDef.rename]
    rw [hid, hxs]
  refine (updateScopes_agrees fun s t hst => ?_).bind fun _ _ _ => ?_
  · have htype : b.Via Ty.rename (StructDef.type ⟨id, name, xs⟩) (StructDef.type ⟨id', name, ys⟩) := by
      simp only [Bond.Via, StructDef.type, Ty.rename, Ty.Object.rename]
      rw [hid]
    rw [Bond.Via, ← Scopes.defineType_rename, ← Scopes.defineType_rename, hst, htype]
  split
  · exact exportStruct_agrees hstruct
  · exact Agrees.pure trivial

/-- What a pragma makes of a fault in the constant it is given. -/
def alignmentFault (site : Location) : Fault → Fault
  | .notConstant _ => .invalidPragma "align" "non-constant expression" site
  | fault => fault

/-- A fault is replaced or passed on; which of the two does not depend on places. -/
theorem alignmentFault_rename {r : Renaming} (site : Location) (fault : Fault) :
    (alignmentFault site fault).rename r = alignmentFault (site.rename r) (fault.rename r) := by
  cases fault <;> rfl

theorem alignment_agrees (hctx : b.Contexts c d) (value : Option Syntax.Expr)
    {site site' : Location} (hsite : b.Via Location.rename site site') :
    Agrees b (fun m n => m = n) (alignment c value site) (alignment d value site') := by
  cases value with
  | none =>
      refine Agrees.fail (Or.inr ?_)
      simp only [Fault.rename]
      rw [hsite]
  | some value =>
      have hconstant : Agrees b (fun v w => v = w)
          (tryCatch (constant c value) fun fault => fail (alignmentFault site fault))
          (tryCatch (constant d value) fun fault => fail (alignmentFault site' fault)) := by
        refine Agrees.recast (constant_agrees hctx value) fun e f hef => ?_
        rw [alignmentFault_rename, alignmentFault_rename, hef, hsite]
      refine Agrees.bind (x := tryCatch (constant c value) _) (y := tryCatch (constant d value) _)
        (R := fun v w => v = w) ?_ fun v w hvw => ?_
      · convert hconstant using 3
        · rename_i fault
          cases fault <;> rfl
        · rename_i fault
          cases fault <;> rfl
      · rw [hvw]
        split
        · exact Agrees.pure rfl
        · refine Agrees.fail (Or.inr ?_)
          simp only [Fault.rename]
          rw [hsite]

theorem pragma_agrees (hctx : b.Contexts c d) (depth : Nat) (name : String)
    (value : Option Syntax.Expr) {site site' : Location}
    (hsite : b.Via Location.rename site site') :
    Agrees b (fun _ _ => True) (pragma c depth name value site) (pragma d depth name value site') := by
  unfold pragma
  split
  · refine Agrees.fail (Or.inr ?_)
    simp only [Fault.rename]
    rw [hsite]
  split
  · refine (alignment_agrees hctx value hsite).bind fun m n hmn => ?_
    rw [hmn]
    exact updatePragmas_agrees fun p => { p with align := n }
  split
  · cases value with
    | some value =>
        refine Agrees.fail (Or.inr ?_)
        simp only [Fault.rename]
        rw [hsite]
    | none => exact updatePragmas_agrees fun p => { p with multi := true }
  · refine Agrees.fail (Or.inr ?_)
    simp only [Fault.rename]
    rw [hsite]

/-! ## Parts of statements -/

theorem exprList_agrees (hctx : b.Contexts c d) :
    ∀ es, Agrees b (b.Via Expr.renameList) (exprList c es) (exprList d es) := by
  intro es
  induction es with
  | nil =>
      rw [exprList, exprList]
      exact Agrees.pure rfl
  | cons e es ih =>
      rw [exprList, exprList]
      refine (expr_agrees hctx e).bind fun x y hxy => ?_
      refine ih.bind fun xs ys hxys => Agrees.pure ?_
      simp only [Bond.Via, Expr.renameList]
      rw [hxy, hxys]

/-- Actions, if there are any, that are the same up to renaming. -/
abbrev Bond.Actions (b : Bond) (a a' : Option Action) : Prop :=
  a.map (Action.rename b.left) = a'.map (Action.rename b.right)

/-- A statement is kept if it has a label or does something. -/
theorem finish_via {ls ms : List Label} (hlabels : b.Labels ls ms) {a a' : Option Action}
    (haction : b.Actions a a') {site site' : Location} (hsite : b.Via Location.rename site site') :
    b.Via Stmt.renameOption (finish ls a site) (finish ms a' site') := by
  have hempty : ls.isEmpty = ms.isEmpty := by
    have hlength := congrArg List.isEmpty hlabels
    simpa using hlength
  cases a with
  | some a =>
      cases a' with
      | none => simp [Bond.Actions] at haction
      | some a' =>
          simp only [Bond.Actions, Option.map_some, Option.some.injEq] at haction
          simp only [Bond.Via, finish, Stmt.renameOption, Stmt.rename]
          rw [hlabels, haction, hsite]
  | none =>
      cases a' with
      | some a' => simp [Bond.Actions] at haction
      | none =>
          simp only [Bond.Via, finish, hempty]
          split
          · rfl
          · simp only [Stmt.renameOption, Stmt.rename, Action.rename]
            rw [hlabels, hsite]

theorem orNothing_via (hctx : b.Contexts c d) (s : Syntax.Stmt) {x y : Option Stmt}
    (h : b.Via Stmt.renameOption x y) :
    b.Via Stmt.rename (orNothing c s x) (orNothing d s y) := by
  cases x with
  | some x =>
      cases y with
      | none => simp [Bond.Via, Stmt.renameOption] at h
      | some y => exact Option.some.inj h
  | none =>
      cases y with
      | some y => simp [Bond.Via, Stmt.renameOption] at h
      | none =>
          simp only [Bond.Via, orNothing, Option.getD_none, Stmt.rename, Action.rename, List.map_nil]
          rw [hctx.locate]

theorem toList_append_via {x y : Option Stmt} (h : b.Via Stmt.renameOption x y)
    {xs ys : List Stmt} (hs : b.Via Stmt.renameList xs ys) :
    b.Via Stmt.renameList (x.toList ++ xs) (y.toList ++ ys) := by
  have hoption : ∀ (r : Renaming) (z : Option Stmt) (zs : List Stmt),
      Stmt.renameList r (z.toList ++ zs) =
        (Stmt.renameOption r z).toList ++ Stmt.renameList r zs := by
    intro r z zs
    cases z <;> rfl
  rw [Bond.Via, hoption, hoption, h, hs]

/-- An array declared once its size and the type of its elements are known. -/
theorem reserve_agrees (hctx : b.Contexts c d) (name : Syntax.Name) (n : Nat) {x y : Ty}
    (hxy : b.Via Ty.rename x y) :
    Agrees b b.Actions
      (do
        let id ← declare c
        let v : Variable := ⟨id, name.text, .array x n, some n, c.locate name.span⟩
        updateScopes fun scopes => scopes.defineVariable v
        return some (Action.reserve v))
      (do
        let id ← declare d
        let v : Variable := ⟨id, name.text, .array y n, some n, d.locate name.span⟩
        updateScopes fun scopes => scopes.defineVariable v
        return some (Action.reserve v)) := by
  refine (declare_agrees hctx).bind fun id id' hid => ?_
  have hvariable : b.Via Variable.rename
      ⟨id, name.text, .array x n, some n, c.locate name.span⟩
      ⟨id', name.text, .array y n, some n, d.locate name.span⟩ := by
    simp only [Bond.Via, Variable.rename, Ty.rename]
    rw [hid, hxy, hctx.locate]
  refine (updateScopes_agrees fun s t hst => ?_).bind fun _ _ _ => Agrees.pure ?_
  · rw [Bond.Via, ← Scopes.defineVariable_rename, ← Scopes.defineVariable_rename, hst, hvariable]
  · simp only [Bond.Actions, Option.map_some, Action.rename]
    rw [hvariable]

/-- The value is resolved before the name comes into scope, so the name is not visible in its own
value. -/
theorem define_agrees (hctx : b.Contexts c d) (depth : Nat) (site site' : Location)
    (name : Syntax.Name) (value : Syntax.Expr) :
    Agrees b b.Actions (action c depth site (.define name value))
      (action d depth site' (.define name value)) := by
  rw [action, action]
  refine (expr_agrees hctx value).bind fun e f hef => ?_
  refine (declare_agrees hctx).bind fun id id' hid => ?_
  have htype : b.Via Ty.rename
      (if e.type.isLiteral then c.builtins.word .n128 else e.type)
      (if f.type.isLiteral then d.builtins.word .n128 else f.type) := by
    rw [hef.type.isLiteral, hctx.builtins]
    split
    · rfl
    · exact hef.type
  have hvariable : b.Via Variable.rename
      ⟨id, name.text, if e.type.isLiteral then c.builtins.word .n128 else e.type, none,
        c.locate name.span⟩
      ⟨id', name.text, if f.type.isLiteral then d.builtins.word .n128 else f.type, none,
        d.locate name.span⟩ := by
    simp only [Bond.Via, Variable.rename]
    rw [hid, htype, hctx.locate]
  refine (updateScopes_agrees fun s t hst => ?_).bind fun _ _ _ => Agrees.pure ?_
  · rw [Bond.Via, ← Scopes.defineVariable_rename, ← Scopes.defineVariable_rename, hst, hvariable]
  · simp only [Bond.Actions, Option.map_some, Action.rename]
    rw [hvariable, hef]

/-- The size is a constant of the file, and the same number on both sides. -/
theorem defineArray_agrees (hctx : b.Contexts c d) (depth : Nat) (site site' : Location)
    (name : Syntax.Name) (size : Syntax.Expr) (element : Option Syntax.TypeExpr) :
    Agrees b b.Actions (action c depth site (.defineArray name size element))
      (action d depth site' (.defineArray name size element)) := by
  rw [action, action]
  refine (count_agrees hctx size).bind fun m n hmn => ?_
  rw [hmn]
  cases element with
  | some element =>
      exact (typeExpr_agrees hctx element).bind fun x y hxy =>
        reserve_agrees hctx name n hxy
  | none =>
      refine Agrees.bind (Agrees.pure ?_) fun x y hxy => reserve_agrees hctx name n hxy
      rw [Bond.Via, hctx.builtins, Builtins.rename_word, Builtins.rename_word]

/-! ## Actions made of statements

A block, a condition and a loop agree in the two contexts if the statements in them do. -/

theorem block_agrees (depth : Nat) (site site' : Location) {body : List Syntax.Stmt}
    (hbody : Agrees b (b.Via Stmt.renameList) (stmts c (depth + 1) body)
      (stmts d (depth + 1) body)) :
    Agrees b b.Actions (action c depth site (.block body)) (action d depth site' (.block body)) := by
  rw [action, action]
  refine (updateScopes_agrees fun s t hst => ?_).bind fun _ _ _ => ?_
  · rw [Bond.Via, ← Scopes.push_rename, ← Scopes.push_rename, hst]
  refine hbody.bind fun xs ys hxys => ?_
  refine (updateScopes_agrees fun s t hst => ?_).bind fun _ _ _ => Agrees.pure ?_
  · rw [Bond.Via, ← Scopes.pop_rename, ← Scopes.pop_rename, hst]
  · simp only [Bond.Actions, Option.map_some, Action.rename]
    rw [hxys]

theorem branch_agrees (hctx : b.Contexts c d) (depth : Nat) (site site' : Location)
    (test : Syntax.Expr) {taken : Syntax.Stmt} {otherwise : Option Syntax.Stmt}
    (htaken : Agrees b (b.Via Stmt.renameOption) (stmt c (depth + 1) taken)
      (stmt d (depth + 1) taken))
    (hother : Agrees b (b.Via Stmt.renameOption) (optionalBranch c (depth + 1) otherwise)
      (optionalBranch d (depth + 1) otherwise)) :
    Agrees b b.Actions (action c depth site (.branch test taken otherwise))
      (action d depth site' (.branch test taken otherwise)) := by
  rw [action, action]
  refine (condition_agrees hctx test).bind fun e f hef => ?_
  refine htaken.bind fun x y hxy => hother.bind fun z w hzw => Agrees.pure ?_
  simp only [Bond.Actions, Option.map_some, Action.rename]
  rw [hef, orNothing_via hctx taken hxy, hzw]

theorem loop_agrees (hctx : b.Contexts c d) (depth : Nat) (site site' : Location)
    (test : Syntax.Expr) {body : Syntax.Stmt} (bodyFirst : Bool)
    (hbody : Agrees b (b.Via Stmt.renameOption) (stmt c (depth + 1) body)
      (stmt d (depth + 1) body)) :
    Agrees b b.Actions (action c depth site (.loop test body bodyFirst))
      (action d depth site' (.loop test body bodyFirst)) := by
  rw [action, action]
  refine (condition_agrees hctx test).bind fun e f hef => ?_
  refine hbody.bind fun x y hxy => Agrees.pure ?_
  simp only [Bond.Actions, Option.map_some, Action.rename]
  rw [hef, orNothing_via hctx body hxy]

/-! ## Statements -/

/-- Import statements of the names agree in both contexts. -/
def Bond.ImportsAgree (b : Bond) (c d : Context) (names : List String) : Prop :=
  ∀ name ∈ names, ∀ site site', b.Via Location.rename site site' →
    Agrees b (b.Via Program.rename) (importNamed c name site) (importNamed d name site')

/-- What agrees on all names agrees on those of the first part. -/
theorem Bond.ImportsAgree.left {names names' : List String}
    (h : b.ImportsAgree c d (names ++ names')) : b.ImportsAgree c d names :=
  fun name hname => h name (List.mem_append_left _ hname)

/-- What agrees on all names agrees on those of the second part. -/
theorem Bond.ImportsAgree.right {names names' : List String}
    (h : b.ImportsAgree c d (names ++ names')) : b.ImportsAgree c d names' :=
  fun name hname => h name (List.mem_append_right _ hname)

mutual

/-- A statement resolved in two contexts of one file whose import statements agree. -/
theorem stmt_agrees (hctx : b.Contexts c d) (depth : Nat) :
    ∀ s, b.ImportsAgree c d (Syntax.Stmt.imports s) →
      Agrees b (b.Via Stmt.renameOption) (stmt c depth s) (stmt d depth s)
  | .mk decls command span, himports => by
      rw [stmt, stmt]
      refine (declareLabels_agrees hctx decls).bind fun ls ms hls => ?_
      refine (declareLabels_agrees hctx (siteLabels command)).bind fun ls' ms' hls' => ?_
      refine (action_agrees hctx depth (hctx.locate span) command himports).bind
        fun a a' ha => Agrees.pure ?_
      refine finish_via ?_ ha (hctx.locate span)
      rw [Bond.Labels, List.map_append, List.map_append, hls, hls']

/-- Statements resolved in two contexts of one file whose import statements agree. -/
theorem stmts_agrees (hctx : b.Contexts c d) (depth : Nat) :
    ∀ ss, b.ImportsAgree c d (Syntax.Stmt.listImports ss) →
      Agrees b (b.Via Stmt.renameList) (stmts c depth ss) (stmts d depth ss)
  | [], _ => by
      rw [stmts, stmts]
      exact Agrees.pure rfl
  | s :: ss, himports => by
      rw [Syntax.Stmt.listImports] at himports
      rw [stmts, stmts]
      refine (stmt_agrees hctx depth s himports.left).bind fun x y hxy => ?_
      refine (stmts_agrees hctx depth ss himports.right).bind fun xs ys hxys => ?_
      exact Agrees.pure (toList_append_via hxy hxys)

/-- A branch that may be absent, resolved in two contexts of one file whose import statements
agree. -/
theorem optionalBranch_agrees (hctx : b.Contexts c d) (depth : Nat) :
    ∀ s, b.ImportsAgree c d (Syntax.Stmt.optionImports s) →
      Agrees b (b.Via Stmt.renameOption) (optionalBranch c depth s) (optionalBranch d depth s)
  | none, _ => by
      rw [optionalBranch, optionalBranch]
      exact Agrees.pure rfl
  | some s, himports => by
      rw [optionalBranch, optionalBranch]
      refine (stmt_agrees hctx depth s himports).bind fun x y hxy => Agrees.pure ?_
      simp only [Bond.Via, Stmt.renameOption]
      rw [orNothing_via hctx s hxy]

/-- A command resolved in two contexts of one file whose import statements agree. -/
theorem action_agrees (hctx : b.Contexts c d) (depth : Nat) {site site' : Location}
    (hsite : b.Via Location.rename site site') :
    ∀ command, b.ImportsAgree c d (Syntax.Command.imports command) →
      Agrees b b.Actions (action c depth site command) (action d depth site' command)
  | .importFile file, himports => by
      rw [action, action]
      refine (himports file.text (by simp [Syntax.Command.imports]) site site' hsite).bind
        fun p q hpq => Agrees.pure ?_
      simp only [Bond.Actions, Option.map_some, Action.rename]
      rw [hpq]
  | .evaluate value, _ | .goto value _, _ => by
      rw [action, action]
      refine (expr_agrees hctx value).bind fun e f hef => Agrees.pure ?_
      simp only [Bond.Actions, Option.map_some, Action.rename]
      rw [hef]
  | .define name value, _ => define_agrees hctx depth site site' name value
  | .defineArray name size element, _ => defineArray_agrees hctx depth site site' name size element
  | .assign target value, _ => by
      rw [action, action]
      refine (expr_agrees hctx target).bind fun e f hef => ?_
      refine (expr_agrees hctx value).bind fun e' f' hef' => Agrees.pure ?_
      simp only [Bond.Actions, Option.map_some, Action.rename]
      rw [hef, hef']
  | .block body, himports =>
      block_agrees depth site site' (stmts_agrees hctx (depth + 1) body himports)
  | .branch test taken otherwise, himports => by
      rw [Syntax.Command.imports] at himports
      exact branch_agrees hctx depth site site' test
        (stmt_agrees hctx (depth + 1) taken himports.left)
        (optionalBranch_agrees hctx (depth + 1) otherwise himports.right)
  | .loop test body bodyFirst, himports =>
      loop_agrees hctx depth site site' test bodyFirst
        (stmt_agrees hctx (depth + 1) body himports)
  | .struct name fields, _ => by
      rw [action, action]
      exact (defineStruct_agrees hctx depth name.text fields).bind fun _ _ _ => Agrees.pure rfl
  | .words values, _ => by
      rw [action, action]
      refine (exprList_agrees hctx values).bind fun xs ys hxys => Agrees.pure ?_
      simp only [Bond.Actions, Option.map_some, Action.rename]
      rw [hxys]
  | .pragma name value, _ => by
      rw [action, action]
      exact (pragma_agrees hctx depth name.text value hsite).bind fun _ _ _ => Agrees.pure rfl

end

end Resolve

/-! ## Binding label uses

Label uses are bound when the file is resolved, by one pass over its statements.  A finder that is
renamed gives the renamed label, so the pass commutes with renaming; the recursion is the one of
the tree. -/

section Bind

variable {r : Renaming} {find find' : LabelFinder}

mutual

/-- A label use is the only expression that the finder is asked about. -/
theorem Expr.bind_rename (h : ∀ scope name, find' scope name = (find scope name).map (Label.rename r)) :
    ∀ e, Expr.bind find' (e.rename r) = r.result (Expr.rename r) (Expr.bind find e)
  | .int value i => rfl
  | .str text i => rfl
  | .variable v i => rfl
  | .label use i => by
      simp only [Expr.rename, Expr.bind, LabelUse.rename, h]
      cases find use.scope use.name <;> rfl
  | .cast operand i => by
      simp only [Expr.rename, Expr.bind]
      rw [Expr.bind_rename h operand]
      cases Expr.bind find operand <;> rfl
  | .unary op operand i => by
      simp only [Expr.rename, Expr.bind]
      rw [Expr.bind_rename h operand]
      cases Expr.bind find operand <;> rfl
  | .binary op left right i => by
      simp only [Expr.rename, Expr.bind]
      rw [Expr.bind_rename h left, Expr.bind_rename h right]
      cases Expr.bind find left <;> cases Expr.bind find right <;> rfl
  | .index base indices i => by
      simp only [Expr.rename, Expr.bind]
      rw [Expr.bind_rename h base, Expr.bindList_rename h indices]
      cases Expr.bind find base <;> cases Expr.bindList find indices <;> rfl

theorem Expr.bindList_rename
    (h : ∀ scope name, find' scope name = (find scope name).map (Label.rename r)) :
    ∀ es, Expr.bindList find' (Expr.renameList r es) =
      r.result (Expr.renameList r) (Expr.bindList find es)
  | [] => rfl
  | e :: es => by
      simp only [Expr.renameList, Expr.bindList]
      rw [Expr.bind_rename h e, Expr.bindList_rename h es]
      cases Expr.bind find e <;> cases Expr.bindList find es <;> rfl

end

mutual

theorem Stmt.bind_rename (h : ∀ scope name, find' scope name = (find scope name).map (Label.rename r)) :
    ∀ s, Stmt.bind find' (s.rename r) = r.result (Stmt.rename r) (Stmt.bind find s)
  | .mk labels action site => by
      simp only [Stmt.rename, Stmt.bind]
      rw [Action.bind_rename h action]
      cases Action.bind find action <;> rfl

theorem Stmt.bindList_rename
    (h : ∀ scope name, find' scope name = (find scope name).map (Label.rename r)) :
    ∀ ss, Stmt.bindList find' (Stmt.renameList r ss) =
      r.result (Stmt.renameList r) (Stmt.bindList find ss)
  | [] => rfl
  | s :: ss => by
      simp only [Stmt.renameList, Stmt.bindList]
      rw [Stmt.bind_rename h s, Stmt.bindList_rename h ss]
      cases Stmt.bind find s <;> cases Stmt.bindList find ss <;> rfl

theorem Stmt.bindOption_rename
    (h : ∀ scope name, find' scope name = (find scope name).map (Label.rename r)) :
    ∀ s, Stmt.bindOption find' (Stmt.renameOption r s) =
      r.result (Stmt.renameOption r) (Stmt.bindOption find s)
  | none => rfl
  | some s => by
      simp only [Stmt.renameOption, Stmt.bindOption]
      rw [Stmt.bind_rename h s]
      cases Stmt.bind find s <;> rfl

/-- One case for each action; a placed file has its own labels bound already. -/
theorem Action.bind_rename
    (h : ∀ scope name, find' scope name = (find scope name).map (Label.rename r)) :
    ∀ a, Action.bind find' (a.rename r) = r.result (Action.rename r) (Action.bind find a)
  | .nothing => rfl
  | .place file => rfl
  | .evaluate value => by
      simp only [Action.rename, Action.bind]
      rw [Expr.bind_rename h value]
      cases Expr.bind find value <;> rfl
  | .goto target => by
      simp only [Action.rename, Action.bind]
      rw [Expr.bind_rename h target]
      cases Expr.bind find target <;> rfl
  | .define v value => by
      simp only [Action.rename, Action.bind]
      rw [Expr.bind_rename h value]
      cases Expr.bind find value <;> rfl
  | .reserve v => rfl
  | .assign target value => by
      simp only [Action.rename, Action.bind]
      rw [Expr.bind_rename h target, Expr.bind_rename h value]
      cases Expr.bind find target <;> cases Expr.bind find value <;> rfl
  | .block body => by
      simp only [Action.rename, Action.bind]
      rw [Stmt.bindList_rename h body]
      cases Stmt.bindList find body <;> rfl
  | .branch condition taken otherwise => by
      simp only [Action.rename, Action.bind]
      rw [Expr.bind_rename h condition, Stmt.bind_rename h taken, Stmt.bindOption_rename h otherwise]
      cases Expr.bind find condition <;> cases Stmt.bind find taken <;> cases Stmt.bindOption find otherwise <;> rfl
  | .loop condition body bodyFirst => by
      simp only [Action.rename, Action.bind]
      rw [Expr.bind_rename h condition, Stmt.bind_rename h body]
      cases Expr.bind find condition <;> cases Stmt.bind find body <;> rfl
  | .words values => by
      simp only [Action.rename, Action.bind]
      rw [Expr.bindList_rename h values]
      cases Expr.bindList find values <;> rfl

end

end Bind

/-! ## Files

Both sides start with the built-in names and with nothing else, and end by binding the label uses
of the file. -/

namespace Resolve

variable {b : Bond} {c d : Context}

theorem states_start (builtins : Builtins) : b.States (.start builtins) (.start builtins) := by
  simp [Bond.States, State.start, State.rename, Scopes.ofBuiltins_rename, Exports.rename,
    Exports.none]

/-- A label use is bound to the same label, or is the first one on both sides that is bound to
none. -/
theorem bindList_via {s t : Scopes} (hst : b.Via Scopes.rename s t) {xs ys : List Stmt}
    (hxys : b.Via Stmt.renameList xs ys) :
    b.left.result (Stmt.renameList b.left) (Stmt.bindList s.findLabel xs) =
      b.right.result (Stmt.renameList b.right) (Stmt.bindList t.findLabel ys) := by
  have hleft : Stmt.bindList (s.rename b.left).findLabel (Stmt.renameList b.left xs) =
      b.left.result (Stmt.renameList b.left) (Stmt.bindList s.findLabel xs) :=
    Stmt.bindList_rename (fun scope name => Scopes.findLabel_rename s scope name) xs
  have hright : Stmt.bindList (t.rename b.right).findLabel (Stmt.renameList b.right ys) =
      b.right.result (Stmt.renameList b.right) (Stmt.bindList t.findLabel ys) :=
    Stmt.bindList_rename (fun scope name => Scopes.findLabel_rename t scope name) ys
  rw [← hleft, ← hright, hst, hxys]

/-- A file resolved in two contexts whose import statements agree. -/
theorem file_alike (hctx : b.Contexts c d) (tree : Syntax.Program)
    (himports : b.ImportsAgree c d (Syntax.Stmt.listImports tree)) :
    LoadsAlike b (b.Via Program.rename) (file c tree) (file d tree) := by
  have hopen := stmts_agrees hctx 0 tree himports (.start c.builtins) (.start d.builtins)
    (by rw [hctx.builtins]; exact states_start d.builtins)
  refine LoadsAlike.bind hopen ?_
  rintro ⟨xs, s⟩ ⟨ys, t⟩ ⟨hxys, hst⟩
  have hbound := bindList_via hst.scopes hxys
  dsimp only at hxys hst hbound ⊢
  cases hx : Stmt.bindList s.scopes.findLabel xs with
  | error e =>
      cases hy : Stmt.bindList t.scopes.findLabel ys with
      | error f =>
          rw [hx, hy] at hbound
          exact LoadsAlike.throw (Or.inr (Except.error.inj hbound))
      | ok ys' =>
          rw [hx, hy] at hbound
          cases hbound
  | ok xs' =>
      cases hy : Stmt.bindList t.scopes.findLabel ys with
      | error f =>
          rw [hx, hy] at hbound
          cases hbound
      | ok ys' =>
          rw [hx, hy] at hbound
          refine LoadsAlike.pure ?_
          have hexports : s.exports.rename b.left = t.exports.rename b.right :=
            congrArg State.exports hst
          have hpragmas : (s.rename b.left).pragmas = (t.rename b.right).pragmas :=
            congrArg State.pragmas hst
          simp only [Bond.Via, Program.rename]
          rw [hctx.file, Except.ok.inj hbound, hexports, show s.pragmas = t.pragmas from hpragmas]

end Resolve

end ByteJump
