import ByteJump.Scopes
import ByteJump.Syntax.Tree

set_option autoImplicit false

/-!
# Resolved programs

In a resolved program every name is replaced by what it means: variables and labels are
declarations, expressions have types, and an import holds the resolved file.  A label may be used
before it is declared, so a use remembers the scope it stands in and gets its target last.
-/

namespace ByteJump

/-! ## Expressions -/

/-- The type of an expression and where it was written. -/
structure Info where
  type : Ty
  site : Location
  deriving Repr

/-- A use of a label: the name, the scope it stands in, and the label it means once that is
known. -/
structure LabelUse where
  name : String
  scope : Nat
  target : Option Label
  deriving Repr

/-- A typed expression.  The type of a cast is the type cast to. -/
inductive Expr where
  | int (value : Word128) (info : Info)
  | str (text : String) (info : Info)
  | variable (v : Variable) (info : Info)
  | label (use : LabelUse) (info : Info)
  | cast (operand : Expr) (info : Info)
  | unary (op : UnaryOp) (operand : Expr) (info : Info)
  | binary (op : BinaryOp) (left right : Expr) (info : Info)
  | index (base : Expr) (indices : List Expr) (info : Info)

namespace Expr

/-- The type and the place of an expression. -/
def info : Expr → Info
  | .int _ i => i
  | .str _ i => i
  | .variable _ i => i
  | .label _ i => i
  | .cast _ i => i
  | .unary _ _ i => i
  | .binary _ _ _ i => i
  | .index _ _ i => i

/-- The type of an expression. -/
def type (e : Expr) : Ty := e.info.type

/-- Where an expression was written. -/
def site (e : Expr) : Location := e.info.site

mutual

/-- The value depends on the address of a label. -/
def mentionsLabel : Expr → Bool
  | .label .. => true
  | .int .. | .str .. | .variable .. => false
  | .cast operand _ => mentionsLabel operand
  | .unary _ operand _ => mentionsLabel operand
  | .binary _ left right _ => mentionsLabel left || mentionsLabel right
  | .index base indices _ => mentionsLabel base || anyMentionsLabel indices

/-- Some value depends on the address of a label. -/
def anyMentionsLabel : List Expr → Bool
  | [] => false
  | e :: es => mentionsLabel e || anyMentionsLabel es

end

mutual

/-- The string literals of an expression, from left to right. -/
def strings : Expr → List String
  | .str text _ => [text]
  | .int .. | .variable .. | .label .. => []
  | .cast operand _ => strings operand
  | .unary _ operand _ => strings operand
  | .binary _ left right _ => strings left ++ strings right
  | .index base indices _ => strings base ++ listStrings indices

/-- The string literals of several expressions. -/
def listStrings : List Expr → List String
  | [] => []
  | e :: es => strings e ++ listStrings es

end

end Expr

/-! ## Programs -/

/-- A struct that other files can use. -/
structure StructDef where
  id : DeclId
  name : String
  fields : List (String × Ty)
  deriving Repr

/-- The type of the values of a struct. -/
def StructDef.type (d : StructDef) : Ty := .object (.struct d.id d.name)

/-- What a file shows to the files that import it: its outermost structs and its exported labels,
one of each name. -/
structure Exports where
  structs : List StructDef
  labels : List Label
  deriving Repr

namespace Exports

/-- A file that shows nothing. -/
def none : Exports := ⟨[], []⟩

/-- One more struct; it takes the place of one with the same name. -/
def addStruct (x : Exports) (d : StructDef) : Exports :=
  { x with structs := d :: x.structs.filter fun old => old.name != d.name }

/-- One more label; it takes the place of one with the same name. -/
def addLabel (x : Exports) (label : Label) : Exports :=
  { x with labels := label :: x.labels.filter fun old => old.name != label.name }

end Exports

/-- The settings of a file. -/
structure Pragmas where
  /-- the code of the file starts at a multiple of this number -/
  align : Nat
  /-- the code of the file is placed at every import, not only at the first -/
  multi : Bool
  deriving DecidableEq, Repr

/-- The settings of a file without pragmas. -/
def Pragmas.default : Pragmas := ⟨1, false⟩

mutual

/-- A resolved statement: the labels that name its address, and what it does. -/
inductive Stmt where
  | mk (labels : List Label) (action : Action) (site : Location)

/-- What a resolved statement does. -/
inductive Action where
  /-- carry labels only -/
  | nothing
  /-- place the code of an imported file here -/
  | place (file : Program)
  | evaluate (value : Expr)
  | goto (target : Expr)
  | define (v : Variable) (value : Expr)
  | reserve (v : Variable)
  | assign (target value : Expr)
  | block (body : List Stmt)
  | branch (condition : Expr) (taken : Stmt) (otherwise : Option Stmt)
  | loop (condition : Expr) (body : Stmt) (bodyFirst : Bool)
  | words (values : List Expr)

/-- A resolved file. -/
inductive Program where
  | mk (file : Path) (statements : List Stmt) (exports : Exports) (pragmas : Pragmas)

end

/-- The file a program was resolved from. -/
def Program.file : Program → Path
  | .mk file _ _ _ => file

/-- The statements of a program. -/
def Program.statements : Program → List Stmt
  | .mk _ statements _ _ => statements

/-- What a program shows to the files that import it. -/
def Program.exports : Program → Exports
  | .mk _ _ exports _ => exports

/-- The settings of a program. -/
def Program.pragmas : Program → Pragmas
  | .mk _ _ _ pragmas => pragmas

end ByteJump
