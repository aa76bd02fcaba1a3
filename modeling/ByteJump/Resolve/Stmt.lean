import ByteJump.Image.Layout
import ByteJump.Resolve.Expr
import ByteJump.Resolve.Label

set_option autoImplicit false

/-!
# Resolving statements

A block opens a scope; the branches of a condition and the body of a loop open none, but they are
nested all the same: pragmas may not stand there, and structs defined there are not exported.  A
statement that does nothing when the program runs leaves a trace only if it carries labels.
-/

namespace ByteJump.Resolve

/-! ## Labels -/

/-- The labels that stand at a command itself. -/
def siteLabels : Syntax.Command → List Syntax.LabelDecl
  | .goto _ labels => labels
  | _ => []

/-- Labels declared in the open scope, and exported if they say so. -/
def declareLabels (ctx : Context) : List Syntax.LabelDecl → Resolving (List Label)
  | [] => return []
  | decl :: decls => do
      let id ← declare ctx
      let label : Label := ⟨id, decl.name, decl.exported, ctx.locate decl.span⟩
      updateScopes fun scopes => scopes.defineLabel label
      if decl.exported then modify fun s => { s with exports := s.exports.addLabel label }
      let labels ← declareLabels ctx decls
      return label :: labels

/-! ## Imports -/

/-- What a file exports, declared in the open scope. -/
def merge (exports : Exports) : Resolving Unit :=
  updateScopes fun scopes =>
    let scopes := exports.structs.foldr (fun d s => s.defineType d.name d.type) scopes
    exports.labels.foldr (fun label s => s.defineLabel label) scopes

/-- The program of the first file with the name in the directories that are searched.  A file that
is being resolved cannot be imported; one that was resolved before is not resolved again. -/
def importNamed (ctx : Context) (name : String) (site : Location) : Resolving Program := do
  let candidates := ctx.searchPaths.map fun dir => dir.join name
  match candidates.find? ctx.source.contains with
  | none => fail (.importNotFound name candidates site)
  | some path => do
      let identity := ctx.source.identity path
      if ctx.active.any fun file => file.same identity then
        fail (.importCycle (ctx.active ++ [identity]) site)
      else do
        let program ← (show Loading Program from do
          match (← get).lookup identity.key with
          | some program => return program
          | none => ctx.importFile identity)
        merge program.exports
        return program

/-! ## Structs and pragmas -/

/-- The fields of a struct; a name may not come twice. -/
def structFields (ctx : Context) (struct : String) :
    List (String × Ty) → List Syntax.Field → Resolving (List (String × Ty))
  | done, [] => return done.reverse
  | done, field :: fields => do
      if done.any fun other => other.1 = field.name then
        fail (.duplicateField field.name struct (ctx.locate field.span))
      else do
        let type ← typeExpr ctx field.type
        structFields ctx struct ((field.name, type) :: done) fields

/-- A struct declared in the open scope; an outermost one is exported. -/
def defineStruct (ctx : Context) (depth : Nat) (name : String) (fields : List Syntax.Field) :
    Resolving Unit := do
  let fields ← structFields ctx name [] fields
  let id ← declare ctx
  let struct : StructDef := ⟨id, name, fields⟩
  updateScopes fun scopes => scopes.defineType name struct.type
  if depth = 0 then modify fun s => { s with exports := s.exports.addStruct struct }

/-- The alignment a pragma asks for: a constant from 1 to the largest alignment. -/
def alignment (ctx : Context) (value : Option Syntax.Expr) (site : Location) : Resolving Nat := do
  let invalid := fun text : String => Fault.invalidPragma "align" text site
  match value with
  | none => fail (invalid "<none>")
  | some value => do
      let align ← tryCatch (constant ctx value) fun fault =>
        match fault with
        | .notConstant _ => fail (invalid "non-constant expression")
        | fault => fail fault
      if 1 ≤ align.toNat ∧ align.toNat ≤ Memory.maxAlign then return align.toNat
      else fail (invalid (toString align.toNat))

/-- A pragma changes the settings of the file. -/
def pragma (ctx : Context) (depth : Nat) (name : String) (value : Option Syntax.Expr)
    (site : Location) : Resolving Unit := do
  if depth > 0 then fail (.misplacedPragma name site)
  else if name = "align" then do
    let align ← alignment ctx value site
    modify fun s => { s with pragmas := { s.pragmas with align := align } }
  else if name = "multi" then
    match value with
    | some _ => fail (.invalidPragma name "unexpected argument" site)
    | none => modify fun s => { s with pragmas := { s.pragmas with multi := true } }
  else fail (.unknownPragma name site)

/-! ## Statements -/

/-- Expressions in order. -/
def exprList (ctx : Context) : List Syntax.Expr → Resolving (List Expr)
  | [] => return []
  | e :: es => do
      let e ← expr ctx e
      let es ← exprList ctx es
      return e :: es

/-- A statement of what remains of a command: nothing at all, unless it carries labels. -/
def finish (labels : List Label) (action : Option Action) (site : Location) : Option Stmt :=
  match action with
  | some action => some (.mk labels action site)
  | none => if labels.isEmpty then none else some (.mk labels .nothing site)

/-- A branch or a loop body: a statement of which nothing remains leaves one that does nothing. -/
def orNothing (ctx : Context) (s : Syntax.Stmt) (resolved : Option Stmt) : Stmt :=
  resolved.getD (.mk [] .nothing (ctx.locate s.span))

mutual

/-- A statement, if anything of it remains. -/
def stmt (ctx : Context) (depth : Nat) : Syntax.Stmt → Resolving (Option Stmt)
  | .mk decls command span => do
      let site := ctx.locate span
      let labels ← declareLabels ctx decls
      let more ← declareLabels ctx (siteLabels command)
      let action ← action ctx depth site command
      return finish (labels ++ more) action site

/-- Statements in order. -/
def stmts (ctx : Context) (depth : Nat) : List Syntax.Stmt → Resolving (List Stmt)
  | [] => return []
  | s :: ss => do
      let first ← stmt ctx depth s
      let rest ← stmts ctx depth ss
      return first.toList ++ rest

/-- A branch that may be absent. -/
def optionalBranch (ctx : Context) (depth : Nat) : Option Syntax.Stmt → Resolving (Option Stmt)
  | none => return none
  | some s => do
      let resolved ← stmt ctx depth s
      return some (orNothing ctx s resolved)

/-- What a command does when the program runs, if it does anything. -/
def action (ctx : Context) (depth : Nat) (site : Location) :
    Syntax.Command → Resolving (Option Action)
  | .importFile file => do
      let program ← importNamed ctx file.text site
      return some (.place program)
  | .evaluate value => do
      let value ← expr ctx value
      return some (.evaluate value)
  | .goto target _ => do
      let target ← expr ctx target
      return some (.goto target)
  | .define name value => do
      let value ← expr ctx value
      let type := if value.type.isLiteral then ctx.builtins.word .n128 else value.type
      let id ← declare ctx
      let v : Variable := ⟨id, name.text, type, none, ctx.locate name.span⟩
      updateScopes fun scopes => scopes.defineVariable v
      return some (.define v value)
  | .defineArray name size element => do
      let count ← count ctx size
      let element ← match element with
        | some element => typeExpr ctx element
        | none => pure (ctx.builtins.word .n128)
      let id ← declare ctx
      let v : Variable :=
        ⟨id, name.text, .array element count, some count, ctx.locate name.span⟩
      updateScopes fun scopes => scopes.defineVariable v
      return some (.reserve v)
  | .assign target value => do
      let target ← expr ctx target
      let value ← expr ctx value
      return some (.assign target value)
  | .block body => do
      updateScopes Scopes.push
      let body ← stmts ctx (depth + 1) body
      updateScopes Scopes.pop
      return some (.block body)
  | .branch test taken otherwise => do
      let test ← condition ctx test
      let resolved ← stmt ctx (depth + 1) taken
      let otherwise ← optionalBranch ctx (depth + 1) otherwise
      return some (.branch test (orNothing ctx taken resolved) otherwise)
  | .loop test body bodyFirst => do
      let test ← condition ctx test
      let resolved ← stmt ctx (depth + 1) body
      return some (.loop test (orNothing ctx body resolved) bodyFirst)
  | .struct name fields => do
      defineStruct ctx depth name.text fields
      return none
  | .words values => do
      let values ← exprList ctx values
      return some (.words values)
  | .pragma name value => do
      pragma ctx depth name.text value site
      return none

end

/-! ## Files -/

/-- The statements of a file with everything in them resolved but labels. -/
def openFile (ctx : Context) (tree : Syntax.Program) : Resolving (List Stmt) := stmts ctx 0 tree

/-- A file with everything resolved. -/
def file (ctx : Context) (tree : Syntax.Program) : Loading Program := do
  let (statements, s) ← (openFile ctx tree).run (.start ctx.builtins)
  match Stmt.bindList s.scopes.findLabel statements with
  | .ok statements => return .mk ctx.file statements s.exports s.pragmas
  | .error fault => throw fault

end ByteJump.Resolve
