import ByteJump.Proofs.Resolve.SameFile

set_option autoImplicit false

/-!
# Elaboration with one environment

The meaning of names in a file, told without scopes that open and close.  One environment says what
each name of a type and each name of a variable means; it is handed from statement to statement in
the order of the text.  A declaration gives back a larger environment, a block gives back the one it
was given, and everything in between is looked up in the environment at hand.

Labels are left alone here: a use of a label keeps its name and gets no meaning.
-/

namespace ByteJump.Elaborate

open Resolve (Context Imports Loading)

/-! ## Environments -/

/-- What the names of types and of variables mean. -/
structure Env where
  types : String → Option Ty
  vars : String → Option Variable

namespace Env

/-- In front of a file only the builtin types have names. -/
def builtin (b : Builtins) : Env := ⟨fun name => b.named.lookup name, fun _ => none⟩

/-- From here on the name means the type. -/
def withType (env : Env) (name : String) (type : Ty) : Env :=
  { env with types := fun other => if other = name then some type else env.types other }

/-- From here on the name of the variable means the variable. -/
def withVariable (env : Env) (v : Variable) : Env :=
  { env with vars := fun other => if other = v.name then some v else env.vars other }

/-- From here on the names of structs mean them; the first of them with a name counts. -/
def withStructs (env : Env) (structs : List StructDef) : Env :=
  structs.foldr (fun d env => env.withType d.name d.type) env

end Env

/-! ## Expressions and types -/

/-- The expression, which has to be a number. -/
def integer (e : Expr) : Except Fault Expr :=
  if e.type.isInteger then .ok e else .error (.typeMismatch "integer" e.type.text e.site)

mutual

/-- An expression with its type. -/
def expr (ctx : Context) (env : Env) : Syntax.Expr → Except Fault Expr
  | .int value span => .ok (.int value ⟨ctx.builtins.literal, ctx.locate span⟩)
  | .str text span => .ok (.str text ⟨ctx.builtins.string, ctx.locate span⟩)
  | .variable name span =>
      match env.vars name with
      | some v => .ok (.variable v ⟨v.type, ctx.locate span⟩)
      | none => .error (.undefined .variable name (ctx.locate span))
  | .label name span =>
      .ok (.label ⟨name, 0, none⟩ ⟨ctx.builtins.address, ctx.locate span⟩)
  | .cast operand target span => do
      let operand ← expr ctx env operand
      let type ← typeExpr ctx env target
      return .cast operand ⟨type, ctx.locate span⟩
  | .unary op operand span => do
      let operand ← expr ctx env operand
      let operand ← integer operand
      -- what an address leads to is a byte
      let type := if op = .deref then ctx.builtins.word .n8 else operand.type
      return .unary op operand ⟨type, ctx.locate span⟩
  | .binary op left right span => do
      let left ← expr ctx env left
      let right ← expr ctx env right
      if left.type.same right.type then return .binary op left right ⟨left.type, ctx.locate span⟩
      else .error (.typeMismatch left.type.text right.type.text (ctx.locate span))
  | .access base accessors span => do
      let base ← expr ctx env base
      let (type, indices) ← access ctx env (ctx.locate span) base.type accessors
      return .index base indices ⟨type, ctx.locate span⟩

/-- What is reached from a value of a type; the arguments of a call are looked at before the call is
refused, and an index before what is indexed. -/
def access (ctx : Context) (env : Env) (site : Location) (type : Ty) :
    List Syntax.Accessor → Except Fault (Ty × List Expr)
  | [] => .ok (type, [])
  | .call arguments :: _ => do
      let _ ← exprs ctx env arguments
      .error (.invalidAccess ("`" ++ type.text ++ "` is not callable") site)
  | .index index :: rest => do
      let index ← expr ctx env index
      let index ← integer index
      match type with
      | .array element _ => do
          let (type, indices) ← access ctx env site element rest
          return (type, index :: indices)
      | .object _ => .error (.invalidAccess ("cannot index into `" ++ type.text ++ "`") site)

/-- Expressions from left to right. -/
def exprs (ctx : Context) (env : Env) : List Syntax.Expr → Except Fault (List Expr)
  | [] => .ok []
  | e :: es => do
      let e ← expr ctx env e
      let es ← exprs ctx env es
      return e :: es

/-- What a type as written means; the element type of an array comes before its size. -/
def typeExpr (ctx : Context) (env : Env) : Syntax.TypeExpr → Except Fault Ty
  | .named name span =>
      match env.types name with
      | some type => .ok type
      | none => .error (.undefined .type name (ctx.locate span))
  | .array inner size _ => do
      let inner ← typeExpr ctx env inner
      let size ← expr ctx env size
      let value ← Constant.evaluate Constant.unplaced size
      return .array inner (min value.toNat maxWord)

end

/-- The value of an expression that has to be constant. -/
def constant (ctx : Context) (env : Env) (e : Syntax.Expr) : Except Fault Word128 := do
  let e ← expr ctx env e
  Constant.evaluate Constant.unplaced e

/-- How many elements an array of a given size has. -/
def count (ctx : Context) (env : Env) (size : Syntax.Expr) : Except Fault Nat := do
  let value ← constant ctx env size
  return min value.toNat maxWord

/-- A condition has to be a number. -/
def condition (ctx : Context) (env : Env) (e : Syntax.Expr) : Except Fault Expr := do
  let e ← expr ctx env e
  integer e

/-! ## Structs and pragmas -/

/-- The fields of a struct behind those that are done; a name may not come twice. -/
def fields (ctx : Context) (env : Env) (struct : String) :
    List (String × Ty) → List Syntax.Field → Except Fault (List (String × Ty))
  | done, [] => .ok done.reverse
  | done, field :: rest =>
      if done.any fun other => other.1 = field.name then
        .error (.duplicateField field.name struct (ctx.locate field.span))
      else do
        let type ← typeExpr ctx env field.type
        fields ctx env struct ((field.name, type) :: done) rest

/-- The alignment that a pragma asks for. -/
def alignment (ctx : Context) (env : Env) (value : Option Syntax.Expr) (site : Location) :
    Except Fault Nat :=
  match value with
  | none => .error (.invalidPragma "align" "<none>" site)
  | some value => do
      let align ← (constant ctx env value).mapError (Resolve.alignmentFault site)
      if 1 ≤ align.toNat ∧ align.toNat ≤ Memory.maxAlign then return align.toNat
      else .error (.invalidPragma "align" (toString align.toNat) site)

/-! ## Statements -/

/-- What is collected from a file besides its statements. -/
structure Tally where
  /-- how many declarations there are -/
  declared : Nat
  exports : Exports
  pragmas : Pragmas

/-- An elaboration may load other files and collects as it goes. -/
abbrev Elaborating (α : Type) : Type := StateT Tally (EStateM Fault Imports) α

/-- A value that was checked, or the fault that was found. -/
def checked {α : Type} : Except Fault α → Elaborating α
  | .ok a => pure a
  | .error fault => throw fault

/-- The identity of the next declaration. -/
def next (ctx : Context) : Elaborating DeclId := do
  let tally ← get
  set { tally with declared := tally.declared + 1 }
  return ⟨ctx.unit, tally.declared⟩

/-- Labels that are declared. -/
def labels (ctx : Context) : List Syntax.LabelDecl → Elaborating (List Label)
  | [] => return []
  | decl :: decls => do
      let id ← next ctx
      let label : Label := ⟨id, decl.name, decl.exported, ctx.locate decl.span⟩
      if decl.exported then
        modify fun tally => { tally with exports := tally.exports.addLabel label }
      let rest ← labels ctx decls
      return label :: rest

/-- The program that an import statement names: the first file with the name in the directories that
are searched, unless it is being resolved. -/
def imported (ctx : Context) (name : String) (site : Location) : Elaborating Program :=
  let candidates := ctx.searchPaths.map fun dir => dir.join name
  match candidates.find? ctx.source.contains with
  | none => throw (.importNotFound name candidates site)
  | some path =>
      let identity := ctx.source.identity path
      if ctx.active.any fun file => file.same identity then
        throw (.importCycle (ctx.active ++ [identity]) site)
      else liftM (Resolve.importFound ctx identity)

/-- A struct that is declared; one outside all blocks and branches is shown to other files. -/
def struct (ctx : Context) (depth : Nat) (env : Env) (name : String)
    (members : List Syntax.Field) : Elaborating Env := do
  let members ← checked (fields ctx env name [] members)
  let id ← next ctx
  let d : StructDef := ⟨id, name, members⟩
  if depth = 0 then modify fun tally => { tally with exports := tally.exports.addStruct d }
  return env.withType name d.type

/-- A setting of the file; it has to stand outside all blocks and branches. -/
def pragma (ctx : Context) (depth : Nat) (env : Env) (name : String)
    (value : Option Syntax.Expr) (site : Location) : Elaborating Unit :=
  if depth > 0 then throw (.misplacedPragma name site)
  else if name = "align" then do
    let align ← checked (alignment ctx env value site)
    modify fun tally => { tally with pragmas := { tally.pragmas with align := align } }
  else if name = "multi" then
    match value with
    | some _ => throw (.invalidPragma name "unexpected argument" site)
    | none => modify fun tally => { tally with pragmas := { tally.pragmas with multi := true } }
  else throw (.unknownPragma name site)

mutual

/-- What remains of a statement, and the environment behind it. -/
def stmt (ctx : Context) (depth : Nat) (env : Env) :
    Syntax.Stmt → Elaborating (Option Stmt × Env)
  | .mk decls command span => do
      let site := ctx.locate span
      let front ← labels ctx decls
      let more ← labels ctx (Resolve.siteLabels command)
      let (action, env) ← action ctx depth env site command
      return (Resolve.finish (front ++ more) action site, env)

/-- Statements in the order of the text, each in the environment behind the one before. -/
def stmts (ctx : Context) (depth : Nat) (env : Env) :
    List Syntax.Stmt → Elaborating (List Stmt × Env)
  | [] => return ([], env)
  | s :: ss => do
      let (first, env) ← stmt ctx depth env s
      let (rest, env) ← stmts ctx depth env ss
      return (first.toList ++ rest, env)

/-- A branch that may be absent. -/
def branch (ctx : Context) (depth : Nat) (env : Env) :
    Option Syntax.Stmt → Elaborating (Option Stmt × Env)
  | none => return (none, env)
  | some s => do
      let (resolved, env) ← stmt ctx depth env s
      return (some (Resolve.orNothing ctx s resolved), env)

/-- What a command does when the program runs, if it does anything, and the environment behind
it. -/
def action (ctx : Context) (depth : Nat) (env : Env) (site : Location) :
    Syntax.Command → Elaborating (Option Action × Env)
  | .importFile file => do
      let program ← imported ctx file.text site
      return (some (.place program), env.withStructs program.exports.structs)
  | .evaluate value => do
      let value ← checked (expr ctx env value)
      return (some (.evaluate value), env)
  | .goto target _ => do
      let target ← checked (expr ctx env target)
      return (some (.goto target), env)
  | .define name value => do
      let value ← checked (expr ctx env value)
      -- a literal alone does not say how large the variable is
      let type := if value.type.isLiteral then ctx.builtins.word .n128 else value.type
      let id ← next ctx
      let v : Variable := ⟨id, name.text, type, none, ctx.locate name.span⟩
      return (some (.define v value), env.withVariable v)
  | .defineArray name size element => do
      let count ← checked (count ctx env size)
      let element ← match element with
        | some element => checked (typeExpr ctx env element)
        | none => pure (ctx.builtins.word .n128)
      let id ← next ctx
      let v : Variable :=
        ⟨id, name.text, .array element count, some count, ctx.locate name.span⟩
      return (some (.reserve v), env.withVariable v)
  | .assign target value => do
      let target ← checked (expr ctx env target)
      let value ← checked (expr ctx env value)
      return (some (.assign target value), env)
  | .block body => do
      let (body, _) ← stmts ctx (depth + 1) env body
      return (some (.block body), env)
  | .branch test taken otherwise => do
      let test ← checked (condition ctx env test)
      let (resolved, env) ← stmt ctx (depth + 1) env taken
      let (otherwise, env) ← branch ctx (depth + 1) env otherwise
      return (some (.branch test (Resolve.orNothing ctx taken resolved) otherwise), env)
  | .loop test body bodyFirst => do
      let test ← checked (condition ctx env test)
      let (resolved, env) ← stmt ctx (depth + 1) env body
      return (some (.loop test (Resolve.orNothing ctx body resolved) bodyFirst), env)
  | .struct name members => do
      let env ← struct ctx depth env name.text members
      return (none, env)
  | .words values => do
      let values ← checked (exprs ctx env values)
      return (some (.words values), env)
  | .pragma name value => do
      pragma ctx depth env name.text value site
      return (none, env)

end

/-- The statements of a file without the meaning of labels, and what is collected from the file. -/
def file (ctx : Context) (tree : Syntax.Program) : Loading (List Stmt × Tally) := do
  let ((statements, _), tally) ←
    (stmts ctx 0 (.builtin ctx.builtins) tree).run ⟨0, .none, .default⟩
  return (statements, tally)

theorem file_run (ctx : Context) (tree : Syntax.Program) (I : Imports) :
    file ctx tree I =
      match stmts ctx 0 (.builtin ctx.builtins) tree ⟨0, .none, .default⟩ I with
      | .ok done J => .ok (done.1.1, done.2) J
      | .error e J => .error e J := by
  show EStateM.bind (stmts ctx 0 (.builtin ctx.builtins) tree ⟨0, .none, .default⟩) _ I = _
  unfold EStateM.bind
  cases stmts ctx 0 (.builtin ctx.builtins) tree ⟨0, .none, .default⟩ I <;> rfl

end ByteJump.Elaborate
