import ByteJump.Proofs.Respelling.Expressions
import ByteJump.Proofs.Sessions

set_option autoImplicit false

/-!
# Resolving respelled files

A respelled file is resolved to the respelled program.  An import statement counts for a fault here:
in a file on its own it finds nothing, or the file itself.

The resolver runs on the two files side by side, under two contexts that are `Alike`: the same
tables, with names respelled in the second one.  The lemmas follow the functions of the resolver,
and `Echoes r f` says that the second run answers with `f` of what the first one answers with, or
fails with the same kind.  Renaming the labels an expression uses is a pass of its own behind the
walk; it gets the same treatment in `Expr.bind_mirrors` and its companions.  `file_mirrors` puts
both together for a file.
-/

namespace ByteJump

namespace Resolve

variable {r : Respelling} {c d : Context}

/-- The import statement finds no file but one that is being resolved. -/
def Context.Barred (c : Context) (name : String) : Prop :=
  ∀ path, c.source.target c.searchPaths name = some path →
    (c.active.any fun file => file.same (c.source.identity path)) = true

/-! ## Declarations

A declaration takes the next identity, so a respelled file declares the same identities in the
same order.  Only the spelling in front of an identity differs. -/

/-- The next identity is the same, and so is the binding of the name. -/
theorem declare_echoes (hcd : c.Alike d) : Echoes r id (declare c) (declare d) := by
  intro s I
  show EStateM.Result.ok (DeclId.mk d.unit s.declared, _) I = .ok (DeclId.mk c.unit s.declared, _) I
  rw [hcd.unit]
  rfl

/-- By induction on the labels. -/
theorem declareLabels_echoes (hr : r.Faithful) (hcd : c.Alike d) :
    ∀ decls, Echoes r (List.map (Label.respell r)) (declareLabels c decls)
      (declareLabels d (decls.map (Syntax.LabelDecl.respell r)))
  | [] => by
      rw [List.map_nil, declareLabels, declareLabels]
      exact .pure []
  | decl :: decls => by
      have hdecl : decl.respell r = ⟨r.label decl.name, decl.exported, r.span decl.span⟩ := rfl
      rw [List.map_cons, hdecl, declareLabels, declareLabels]
      refine (declare_echoes hcd).after fun number => ?_
      dsimp only
      rw [locate_respell hcd]
      have hlabel (s : Scopes) : (s.respell r).defineLabel _ = _ := Scopes.defineLabel_respell s
        ⟨number, decl.name, decl.exported, c.locate decl.span⟩
      refine (Echoes.scopes hlabel).after fun _ => ?_
      split
      · refine (Echoes.update fun s => ?_).after fun _ => ?_
        · simp only [State.respell, ← Exports.addLabel_respell hr]
          rfl
        · refine (declareLabels_echoes hr hcd decls).bind fun labels => ?_
          exact .pure (⟨number, decl.name, decl.exported, c.locate decl.span⟩ :: labels)
      · refine (declareLabels_echoes hr hcd decls).bind fun labels => ?_
        exact .pure (⟨number, decl.name, decl.exported, c.locate decl.span⟩ :: labels)

/-! ## Imports

An import statement finds nothing, or a file that is being resolved; either way it is a fault of
the same kind.  That is all a file on its own can do with one. -/

theorem importNamed_echoes (hcd : c.Alike d) {name : String} (hname : c.Barred name)
    (site : Location) :
    Echoes r (Program.respell r) (importNamed c name site) (importNamed d name (site.respell r)) := by
  unfold Context.Barred FileSource.target at hname
  unfold importNamed
  dsimp only
  rw [← hcd.searchPaths, ← hcd.contains, ← hcd.identity, ← hcd.active]
  cases hfind : (c.searchPaths.map fun dir => dir.join name).find? c.source.contains with
  | none => exact .fail rfl
  | some path =>
      dsimp only
      rw [hname path hfind, if_pos rfl, if_pos rfl]
      exact .fail rfl

/-! ## Structs and pragmas

The name of a field is compared with the fields before it.  As a respelling is injective on
fields, the same field is the first one that is repeated.  A pragma is known by its own name,
which is not respelled. -/

/-- By induction on the fields that are left.  The fields done so far are respelled in the second
run. -/
theorem structFields_echoes (hr : r.Faithful) (hcd : c.Alike d) (name : String) :
    ∀ (fields : List Syntax.Field) (done : List (String × Ty)),
      Echoes r (List.map fun field => (r.field field.1, field.2.respell r))
        (structFields c name done fields)
        (structFields d (r.struct name)
          (done.map fun field => (r.field field.1, field.2.respell r))
          (fields.map (Syntax.Field.respell r)))
  | [], done => by
      rw [List.map_nil, structFields, structFields, ← List.map_reverse]
      exact .pure done.reverse
  | field :: fields, done => by
      have hseen : ((done.map fun field => (r.field field.1, field.2.respell r)).any fun other =>
          other.1 = r.field field.name) = done.any fun other => other.1 = field.name := by
        rw [List.any_map]
        congr 1
        funext other
        simp [hr.field.eq_iff]
      have hfield : field.respell r = ⟨r.field field.name, field.type.respell r, r.span field.span⟩ :=
        rfl
      rw [List.map_cons, hfield, structFields, structFields]
      dsimp only
      rw [hseen]
      split
      · exact .fail rfl
      · refine (typeExpr_echoes hr hcd field.type).bind fun t => ?_
        exact structFields_echoes hr hcd name fields ((field.name, t) :: done)

theorem defineStruct_echoes (hr : r.Faithful) (hcd : c.Alike d) (depth : Nat) (name : String)
    (fields : List Syntax.Field) :
    Echoes r id (defineStruct c depth name fields)
      (defineStruct d depth (r.struct name) (fields.map (Syntax.Field.respell r))) := by
  unfold defineStruct
  refine (structFields_echoes hr hcd name fields []).bind fun fields => ?_
  refine (declare_echoes hcd).after fun number => ?_
  dsimp only
  refine (Echoes.scopes fun s => ?_).after fun _ => ?_
  · exact Scopes.defineType_respell s name (StructDef.type ⟨number, name, fields⟩)
  · split
    · refine .update fun s => ?_
      simp only [State.respell, ← Exports.addStruct_respell hr]
      rfl
    · exact .pure _

/-- Whether the fault is replaced depends on its kind. -/
theorem alignmentFault_kind (site site' : Location) {e e' : Fault} (h : e'.kind = e.kind) :
    (alignmentFault site' e').kind = (alignmentFault site e).kind := by
  cases e <;> cases e' <;> simp_all [alignmentFault, Fault.kind]

/-- The value of an alignment is a constant: it is computed to the same number, or the fault is
replaced alike. -/
theorem alignment_echoes (hr : r.Faithful) (hcd : c.Alike d) (value : Option Syntax.Expr)
    (site : Location) :
    Echoes r id (alignment c value site)
      (alignment d (value.map (Syntax.Expr.respell r)) (site.respell r)) := by
  cases value with
  | none => exact .fail rfl
  | some value =>
      have hconstant : Echoes r id
          (tryCatch (constant c value) fun fault => fail (alignmentFault site fault))
          (tryCatch (constant d (value.respell r)) fun fault =>
            fail (alignmentFault (site.respell r) fault)) :=
        (constant_echoes hr hcd value).recast fun _ _ hkind => alignmentFault_kind _ _ hkind
      refine Echoes.after (x := tryCatch (constant c value) _)
        (y := tryCatch (constant d (value.respell r)) _) ?_ fun v => ?_
      · convert hconstant using 3
        · rename_i fault
          cases fault <;> rfl
        · rename_i fault
          cases fault <;> rfl
      · split
        · exact .pure _
        · exact .fail rfl

/-- A pragma is looked up by its own name, and its value is respelled. -/
theorem pragma_echoes (hr : r.Faithful) (hcd : c.Alike d) (depth : Nat) (name : String)
    (value : Option Syntax.Expr) (site : Location) :
    Echoes r id (pragma c depth name value site)
      (pragma d depth name (value.map (Syntax.Expr.respell r)) (site.respell r)) := by
  unfold pragma
  split
  · exact .fail rfl
  split
  · exact (alignment_echoes hr hcd value site).after fun align => .update fun _ => rfl
  split
  · cases value with
    | some value => exact .fail rfl
    | none => exact .update fun _ => rfl
  · exact .fail rfl

/-! ## Statements

A statement is its labels, its action and its site.  The labels are declared first, then the
action is resolved under them, and an action that resolves to nothing keeps only its labels; each
of these steps is respelled on its own. -/

/-- Labels at a place of a command are those of the respelled command, respelled. -/
theorem siteLabels_respell (command : Syntax.Command) :
    siteLabels (command.respell r) = (siteLabels command).map (Syntax.LabelDecl.respell r) := by
  cases command <;> rfl

theorem finish_respell (labels : List Label) (action : Option Action) (site : Location) :
    finish (labels.map (Label.respell r)) (action.map (Action.respell r)) (site.respell r) =
      (finish labels action site).map (Stmt.respell r) := by
  cases action with
  | some action => rfl
  | none =>
      cases labels with
      | nil => rfl
      | cons label labels => rfl

/-- Where a branch is left out, the empty statement that stands for it has no name in it. -/
theorem orNothing_respell (hcd : c.Alike d) (s : Syntax.Stmt) (resolved : Option Stmt) :
    orNothing d (s.respell r) (resolved.map (Stmt.respell r)) =
      (orNothing c s resolved).respell r := by
  cases resolved with
  | some resolved => rfl
  | none =>
      unfold orNothing
      rw [Syntax.Stmt.span_respell, locate_respell hcd]
      rfl

theorem respellList_toList_append (first : Option Stmt) (rest : List Stmt) :
    Stmt.respellList r (first.toList ++ rest) =
      (first.map (Stmt.respell r)).toList ++ Stmt.respellList r rest := by
  cases first <;> rfl

/-- An array declared once its type is known. -/
theorem reserve_echoes (hcd : c.Alike d) (name : Syntax.Name) (count : Nat) (t : Ty) :
    Echoes r (Option.map (Action.respell r))
      (do
        let id ← declare c
        let v : Variable := ⟨id, name.text, .array t count, some count, c.locate name.span⟩
        updateScopes fun scopes => scopes.defineVariable v
        return some (.reserve v))
      (do
        let id ← declare d
        let v : Variable :=
          ⟨id, r.var name.text, .array (t.respell r) count, some count, d.locate (r.span name.span)⟩
        updateScopes fun scopes => scopes.defineVariable v
        return some (.reserve v)) := by
  refine (declare_echoes hcd).after fun number => ?_
  rw [locate_respell hcd]
  have hv := Scopes.defineVariable_respell (r := r)
    (v := ⟨number, name.text, .array t count, some count, c.locate name.span⟩)
  exact (Echoes.scopes hv).after fun _ => .pure (some (Action.reserve _))

/-- A literal alone gives a variable the same size whatever names are. -/
theorem define_echoes (hr : r.Faithful) (hcd : c.Alike d) (depth : Nat) (site : Location)
    (name : Syntax.Name) (value : Syntax.Expr) :
    Echoes r (Option.map (Action.respell r)) (action c depth site (.define name value))
      (action d depth (site.respell r) ((Syntax.Command.define name value).respell r)) := by
  rw [Syntax.Command.respell, action, action]
  refine (expr_echoes hr hcd value).bind fun e => ?_
  refine (declare_echoes hcd).after fun number => ?_
  dsimp only
  rw [Expr.type_respell, Ty.isLiteral_respell, locate_respell hcd, ← hcd.builtins]
  have htype : (if e.type.isLiteral then c.builtins.word .n128 else e.type.respell r) =
      (if e.type.isLiteral then c.builtins.word .n128 else e.type).respell r := by
    split <;> rfl
  rw [htype]
  generalize (if e.type.isLiteral then c.builtins.word .n128 else e.type) = t
  have hv := Scopes.defineVariable_respell (r := r) (v := ⟨number, name.text, t, none,
    c.locate name.span⟩)
  exact (Echoes.scopes hv).after fun _ => .pure (some (Action.define _ e))

/-- The size of an array is a constant expression, so it is computed before the array is declared.
-/
theorem defineArray_echoes (hr : r.Faithful) (hcd : c.Alike d) (depth : Nat) (site : Location)
    (name : Syntax.Name) (size : Syntax.Expr) (element : Option Syntax.TypeExpr) :
    Echoes r (Option.map (Action.respell r)) (action c depth site (.defineArray name size element))
      (action d depth (site.respell r)
        ((Syntax.Command.defineArray name size element).respell r)) := by
  rw [Syntax.Command.respell, action, action]
  refine (count_echoes hr hcd size).after fun count => ?_
  have hreserve := reserve_echoes (r := r) hcd name count
  cases element with
  | some element => exact (typeExpr_echoes hr hcd element).bind hreserve
  | none =>
      refine Echoes.bind (g := Ty.respell r) ?_ hreserve
      rw [← hcd.builtins]
      exact .pure (c.builtins.word .n128)

mutual

/-- By induction on the statement, with its labels in front. -/
theorem stmt_echoes (hr : r.Faithful) (hcd : c.Alike d) (depth : Nat) :
    ∀ s, (∀ name ∈ Syntax.Stmt.imports s, c.Barred name) →
      Echoes r (Option.map (Stmt.respell r)) (stmt c depth s) (stmt d depth (s.respell r))
  | .mk decls command span, hbarred => by
      rw [Syntax.Stmt.respell, stmt, stmt]
      refine (declareLabels_echoes hr hcd decls).bind fun labels => ?_
      rw [siteLabels_respell, locate_respell hcd]
      refine (declareLabels_echoes hr hcd (siteLabels command)).bind fun more => ?_
      refine (action_echoes hr hcd depth (c.locate span) command hbarred).bind fun act => ?_
      rw [← List.map_append, finish_respell]
      exact .pure (finish (labels ++ more) act (c.locate span))

/-- One statement after the other; those that resolve to nothing leave nothing in both runs. -/
theorem stmts_echoes (hr : r.Faithful) (hcd : c.Alike d) (depth : Nat) :
    ∀ ss, (∀ name ∈ Syntax.Stmt.listImports ss, c.Barred name) →
      Echoes r (Stmt.respellList r) (stmts c depth ss)
        (stmts d depth (Syntax.Stmt.respellList r ss))
  | [], _ => by
      rw [Syntax.Stmt.respellList, stmts, stmts]
      exact .pure []
  | s :: ss, hbarred => by
      rw [Syntax.Stmt.listImports, List.forall_mem_append] at hbarred
      rw [Syntax.Stmt.respellList, stmts, stmts]
      refine (stmt_echoes hr hcd depth s hbarred.1).bind fun first => ?_
      refine (stmts_echoes hr hcd depth ss hbarred.2).bind fun rest => ?_
      rw [← respellList_toList_append]
      exact .pure (first.toList ++ rest)

theorem optionalBranch_echoes (hr : r.Faithful) (hcd : c.Alike d) (depth : Nat) :
    ∀ s, (∀ name ∈ Syntax.Stmt.optionImports s, c.Barred name) →
      Echoes r (Stmt.respellOption r) (optionalBranch c depth s)
        (optionalBranch d depth (Syntax.Stmt.respellOption r s))
  | none, _ => by
      rw [Syntax.Stmt.respellOption, optionalBranch, optionalBranch]
      exact .pure none
  | some s, hbarred => by
      rw [Syntax.Stmt.respellOption, optionalBranch, optionalBranch]
      refine (stmt_echoes hr hcd depth s hbarred).bind fun resolved => ?_
      rw [orNothing_respell hcd]
      exact .pure (some (orNothing c s resolved))

/-- One case for each command.  Blocks, conditions and loops open a scope around the statements
inside, and a respelled scope is again the scope of the respelled statements. -/
theorem action_echoes (hr : r.Faithful) (hcd : c.Alike d) (depth : Nat) (site : Location) :
    ∀ command, (∀ name ∈ Syntax.Command.imports command, c.Barred name) →
      Echoes r (Option.map (Action.respell r)) (action c depth site command)
        (action d depth (site.respell r) (command.respell r))
  | .importFile file, hbarred => by
      rw [Syntax.Command.respell, action, action]
      refine (importNamed_echoes hcd (hbarred _ (List.mem_singleton.mpr rfl)) site).bind fun p => ?_
      exact .pure (some (Action.place p))
  | .evaluate value, _ => by
      rw [Syntax.Command.respell, action, action]
      exact (expr_echoes hr hcd value).bind fun e => .pure (some (Action.evaluate e))
  | .goto target _, _ => by
      rw [Syntax.Command.respell, action, action]
      exact (expr_echoes hr hcd target).bind fun e => .pure (some (Action.goto e))
  | .define name value, _ => define_echoes hr hcd depth site name value
  | .defineArray name size element, _ => defineArray_echoes hr hcd depth site name size element
  | .assign target value, _ => by
      rw [Syntax.Command.respell, action, action]
      refine (expr_echoes hr hcd target).bind fun e => ?_
      exact (expr_echoes hr hcd value).bind fun f => .pure (some (Action.assign e f))
  | .block body, hbarred => by
      rw [Syntax.Command.respell, action, action]
      refine (Echoes.scopes fun s => Scopes.push_respell s).after fun _ => ?_
      refine (stmts_echoes hr hcd (depth + 1) body hbarred).bind fun ss => ?_
      refine (Echoes.scopes fun s => Scopes.pop_respell s).after fun _ => ?_
      exact .pure (some (Action.block ss))
  | .branch test taken otherwise, hbarred => by
      rw [Syntax.Command.imports, List.forall_mem_append] at hbarred
      rw [Syntax.Command.respell, action, action]
      refine (condition_echoes hr hcd test).bind fun e => ?_
      refine (stmt_echoes hr hcd (depth + 1) taken hbarred.1).bind fun resolved => ?_
      refine (optionalBranch_echoes hr hcd (depth + 1) otherwise hbarred.2).bind fun rest => ?_
      rw [orNothing_respell hcd]
      exact .pure (some (Action.branch e (orNothing c taken resolved) rest))
  | .loop test body bodyFirst, hbarred => by
      rw [Syntax.Command.respell, action, action]
      refine (condition_echoes hr hcd test).bind fun e => ?_
      refine (stmt_echoes hr hcd (depth + 1) body hbarred).bind fun resolved => ?_
      rw [orNothing_respell hcd]
      exact .pure (some (Action.loop e (orNothing c body resolved) bodyFirst))
  | .struct name fields, _ => by
      rw [Syntax.Command.respell, action, action]
      exact (defineStruct_echoes hr hcd depth name.text fields).after fun _ => .pure none
  | .words values, _ => by
      rw [Syntax.Command.respell, action, action]
      exact (exprList_echoes hr hcd values).bind fun es => .pure (some (Action.words es))
  | .pragma name value, _ => by
      rw [Syntax.Command.respell, action, action]
      exact (pragma_echoes hr hcd depth name.text value site).after fun _ => .pure none

end

end Resolve

/-! ## Binding label uses

A label use is replaced by the declaration that the finder gives for its scope and name.  If two
finders agree up to respelling, so do the expressions, statements and actions that are bound with
them.  The recursion is that of the tree, with lists and options as cases of their own. -/

section Bind

variable {r : Respelling} {find find' : LabelFinder}

mutual

theorem Expr.bind_mirrors
    (h : ∀ scope name, find' scope (r.label name) = (find scope name).map (Label.respell r)) :
    ∀ e, Mirrors (Expr.respell r) (Expr.bind find e) (Expr.bind find' (e.respell r))
  | .int value i => .ok (Expr.int value i)
  | .str text i => .ok (Expr.str text i)
  | .variable v i => .ok (Expr.variable v i)
  | .label use i => by
      simp only [Expr.respell, Expr.bind, LabelUse.respell, h]
      cases find use.scope use.name with
      | some label => exact .ok (Expr.label { use with target := some label } i)
      | none => exact .error rfl
  | .cast operand i => by
      rw [Expr.respell, Expr.bind, Expr.bind]
      exact (Expr.bind_mirrors h operand).bind fun e => .ok (Expr.cast e i)
  | .unary op operand i => by
      rw [Expr.respell, Expr.bind, Expr.bind]
      exact (Expr.bind_mirrors h operand).bind fun e => .ok (Expr.unary op e i)
  | .binary op left right i => by
      rw [Expr.respell, Expr.bind, Expr.bind]
      refine (Expr.bind_mirrors h left).bind fun e => ?_
      exact (Expr.bind_mirrors h right).bind fun f => .ok (Expr.binary op e f i)
  | .index base indices i => by
      rw [Expr.respell, Expr.bind, Expr.bind]
      refine (Expr.bind_mirrors h base).bind fun e => ?_
      exact (Expr.bindList_mirrors h indices).bind fun es => .ok (Expr.index e es i)

theorem Expr.bindList_mirrors
    (h : ∀ scope name, find' scope (r.label name) = (find scope name).map (Label.respell r)) :
    ∀ es, Mirrors (Expr.respellList r) (Expr.bindList find es)
      (Expr.bindList find' (Expr.respellList r es))
  | [] => .ok []
  | e :: es => by
      rw [Expr.respellList, Expr.bindList, Expr.bindList]
      refine (Expr.bind_mirrors h e).bind fun e => ?_
      exact (Expr.bindList_mirrors h es).bind fun es => .ok (e :: es)

end

mutual

theorem Stmt.bind_mirrors
    (h : ∀ scope name, find' scope (r.label name) = (find scope name).map (Label.respell r)) :
    ∀ s, Mirrors (Stmt.respell r) (Stmt.bind find s) (Stmt.bind find' (s.respell r))
  | .mk labels action site => by
      rw [Stmt.respell, Stmt.bind, Stmt.bind]
      exact (Action.bind_mirrors h action).bind fun a => .ok (Stmt.mk labels a site)

theorem Stmt.bindList_mirrors
    (h : ∀ scope name, find' scope (r.label name) = (find scope name).map (Label.respell r)) :
    ∀ ss, Mirrors (Stmt.respellList r) (Stmt.bindList find ss)
      (Stmt.bindList find' (Stmt.respellList r ss))
  | [] => .ok []
  | s :: ss => by
      rw [Stmt.respellList, Stmt.bindList, Stmt.bindList]
      refine (Stmt.bind_mirrors h s).bind fun s => ?_
      exact (Stmt.bindList_mirrors h ss).bind fun ss => .ok (s :: ss)

theorem Stmt.bindOption_mirrors
    (h : ∀ scope name, find' scope (r.label name) = (find scope name).map (Label.respell r)) :
    ∀ s, Mirrors (Stmt.respellOption r) (Stmt.bindOption find s)
      (Stmt.bindOption find' (Stmt.respellOption r s))
  | none => .ok none
  | some s => by
      rw [Stmt.respellOption, Stmt.bindOption, Stmt.bindOption]
      exact (Stmt.bind_mirrors h s).bind fun s => .ok (some s)

theorem Action.bind_mirrors
    (h : ∀ scope name, find' scope (r.label name) = (find scope name).map (Label.respell r)) :
    ∀ a, Mirrors (Action.respell r) (Action.bind find a) (Action.bind find' (a.respell r))
  | .nothing => .ok Action.nothing
  | .place file => .ok (Action.place file)
  | .reserve v => .ok (Action.reserve v)
  | .evaluate value => by
      rw [Action.respell, Action.bind, Action.bind]
      exact (Expr.bind_mirrors h value).bind fun e => .ok (Action.evaluate e)
  | .goto target => by
      rw [Action.respell, Action.bind, Action.bind]
      exact (Expr.bind_mirrors h target).bind fun e => .ok (Action.goto e)
  | .define v value => by
      rw [Action.respell, Action.bind, Action.bind]
      exact (Expr.bind_mirrors h value).bind fun e => .ok (Action.define v e)
  | .assign target value => by
      rw [Action.respell, Action.bind, Action.bind]
      refine (Expr.bind_mirrors h target).bind fun e => ?_
      exact (Expr.bind_mirrors h value).bind fun f => .ok (Action.assign e f)
  | .block body => by
      rw [Action.respell, Action.bind, Action.bind]
      exact (Stmt.bindList_mirrors h body).bind fun ss => .ok (Action.block ss)
  | .branch condition taken otherwise => by
      rw [Action.respell, Action.bind, Action.bind]
      refine (Expr.bind_mirrors h condition).bind fun e => ?_
      refine (Stmt.bind_mirrors h taken).bind fun s => ?_
      exact (Stmt.bindOption_mirrors h otherwise).bind fun o => .ok (Action.branch e s o)
  | .loop condition body bodyFirst => by
      rw [Action.respell, Action.bind, Action.bind]
      refine (Expr.bind_mirrors h condition).bind fun e => ?_
      exact (Stmt.bind_mirrors h body).bind fun s => .ok (Action.loop e s bodyFirst)
  | .words values => by
      rw [Action.respell, Action.bind, Action.bind]
      exact (Expr.bindList_mirrors h values).bind fun es => .ok (Action.words es)

end

end Bind

/-! ## Files

The state a file starts with holds the built-in names, which a faithful respelling keeps. -/

namespace Resolve

variable {r : Respelling} {c d : Context}

theorem start_respell (hr : r.Faithful) (b : Builtins) :
    (State.start b).respell r = State.start b := by
  simp [State.start, State.respell, Scopes.ofBuiltins_respell hr, Exports.respell, Exports.none]

/-- A respelled file on its own is resolved to the respelled program. -/
theorem file_mirrors (hr : r.Faithful) (hcd : c.Alike d) (tree : Syntax.Program)
    (hbarred : ∀ name ∈ Syntax.Stmt.listImports tree, c.Barred name) (I : Imports) :
    Mirrors (Program.respell r) (value (file c tree I))
      (value (file d (Syntax.Stmt.respellList r tree) I)) := by
  have hopen := stmts_echoes hr hcd 0 tree hbarred (.start c.builtins) I
  rw [start_respell hr] at hopen
  rw [file_run, file_run, ← hcd.builtins]
  cases hrun : stmts c 0 tree (.start c.builtins) I with
  | error e J =>
      rw [hrun] at hopen
      obtain ⟨e', hd, hkind⟩ := hopen
      rw [hd]
      exact .error hkind
  | ok p J =>
      obtain ⟨ss, s⟩ := p
      rw [hrun] at hopen
      dsimp only at hopen
      rw [hopen]
      have hbound := Stmt.bindList_mirrors (r := r)
        (fun scope name => Scopes.findLabel_respell hr s.scopes scope name) ss
      dsimp only
      cases hb : Stmt.bindList s.scopes.findLabel ss with
      | error e =>
          rw [hb] at hbound
          obtain ⟨e', hd, hkind⟩ := hbound
          rw [show Stmt.bindList (s.respell r).scopes.findLabel _ = _ from hd]
          exact .error hkind
      | ok bound =>
          rw [hb] at hbound
          rw [show Stmt.bindList (s.respell r).scopes.findLabel _ = _ from hbound, ← hcd.file]
          exact .ok (Program.mk c.file bound s.exports s.pragmas)

end Resolve

end ByteJump
