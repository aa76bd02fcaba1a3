import ByteJump.Syntax.Tree

set_option autoImplicit false

/-!
# Building trees

Constructors for trees that were not written anywhere: every span in them is zero.
-/

namespace ByteJump.Syntax

/-- A name. -/
def Name.of (text : String) : Name := ⟨text, .zero⟩

/-! ## Types and expressions -/

namespace TypeExpr

/-- A type by its name. -/
def of (name : String) : TypeExpr := .named name .zero

/-- An array of `size` elements of `inner`. -/
def arrayOf (inner : TypeExpr) (size : Expr) : TypeExpr := .array inner size .zero

end TypeExpr

namespace Expr

/-- An integer literal. -/
def ofInt (value : Word128) : Expr := .int value .zero

/-- A string literal. -/
def ofStr (text : String) : Expr := .str text .zero

/-- A use of a variable. -/
def use (name : String) : Expr := .variable name .zero

/-- A use of a label. -/
def useLabel (name : String) : Expr := .label name .zero

/-- A cast to a type by its name. -/
def castTo (target : String) (operand : Expr) : Expr := .cast operand (.of target) .zero

/-- An operator with one operand. -/
def apply (op : UnaryOp) (operand : Expr) : Expr := .unary op operand .zero

/-- An operator with two operands. -/
def combine (op : BinaryOp) (left right : Expr) : Expr := .binary op left right .zero

/-- The byte at an address. -/
def load (address : Expr) : Expr := .apply .deref address

/-- An expression with accessors behind it. -/
def reach (base : Expr) (accessors : List Accessor) : Expr := .access base accessors .zero

end Expr

/-! ## Statements -/

namespace Stmt

/-- A command without labels. -/
def of (command : Command) : Stmt := .mk [] command .zero

/-- The statement with one more label behind those it has. -/
def addLabel (stmt : Stmt) (name : String) (exported : Bool) : Stmt :=
  .mk (stmt.labels ++ [⟨name, exported, .zero⟩]) stmt.command stmt.span

/-- The statement with a label that stays in its file. -/
def labeled (stmt : Stmt) (name : String) : Stmt := stmt.addLabel name false

/-- The statement with a label that importing files see. -/
def exported (stmt : Stmt) (name : String) : Stmt := stmt.addLabel name true

end Stmt

namespace Command

/-- An import of a file. -/
def importOf (file : String) : Command := .importFile (.of file)

/-- A jump without labels of its own. -/
def jump (target : Expr) : Command := .goto target []

/-- A variable with its first value. -/
def letVar (name : String) (value : Expr) : Command := .define (.of name) value

/-- An array variable. -/
def letArray (name : String) (size : Expr) (element : Option TypeExpr) : Command :=
  .defineArray (.of name) size element

/-- A loop that tests before each round. -/
def whileDo (condition : Expr) (body : Stmt) : Command := .loop condition body false

/-- A loop that tests after each round. -/
def doWhile (body : Stmt) (condition : Expr) : Command := .loop condition body true

/-- A struct with fields by name and type. -/
def structOf (name : String) (fields : List (String × TypeExpr)) : Command :=
  .struct (.of name) (fields.map fun field => ⟨field.1, field.2, .zero⟩)

/-- A pragma by its name. -/
def pragmaOf (name : String) (value : Option Expr) : Command := .pragma (.of name) value

end Command

end ByteJump.Syntax
