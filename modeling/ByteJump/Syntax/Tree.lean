import ByteJump.Bytes
import ByteJump.Location

set_option autoImplicit false

/-!
# Syntax trees

The tree of a file before its names mean anything.  A program is a list of statements; a statement
is a command with the labels that stand in front of it.  Every part knows its span.
-/

namespace ByteJump

/-! ## Operators -/

/-- The operators with one operand. -/
inductive UnaryOp where
  | negate
  | plus
  | complement
  | not
  | deref
  deriving DecidableEq, Repr

/-- The operators with two operands. -/
inductive BinaryOp where
  | add
  | sub
  | mul
  | div
  | rem
  | and
  | or
  | xor
  | shiftLeft
  | shiftRight
  deriving DecidableEq, Repr

/-- The sign of an operator with one operand. -/
def UnaryOp.symbol : UnaryOp → String
  | .negate => "-"
  | .plus => "+"
  | .complement => "~"
  | .not => "!"
  | .deref => "*"

/-- The sign of an operator with two operands. -/
def BinaryOp.symbol : BinaryOp → String
  | .add => "+"
  | .sub => "-"
  | .mul => "*"
  | .div => "/"
  | .rem => "%"
  | .and => "&"
  | .or => "|"
  | .xor => "^"
  | .shiftLeft => "<<"
  | .shiftRight => ">>"

/-- All operators with one operand. -/
def UnaryOp.all : List UnaryOp := [.negate, .plus, .complement, .not, .deref]

/-- All operators with two operands. -/
def BinaryOp.all : List BinaryOp :=
  [.add, .sub, .mul, .div, .rem, .and, .or, .xor, .shiftLeft, .shiftRight]

/-- The operator with one operand that has the given sign. -/
def UnaryOp.ofSymbol? (symbol : String) : Option UnaryOp :=
  UnaryOp.all.find? fun op => op.symbol = symbol

/-- The operator with two operands that has the given sign. -/
def BinaryOp.ofSymbol? (symbol : String) : Option BinaryOp :=
  BinaryOp.all.find? fun op => op.symbol = symbol

theorem UnaryOp.ofSymbol?_symbol (op : UnaryOp) : UnaryOp.ofSymbol? op.symbol = some op := by
  cases op <;> decide

theorem BinaryOp.ofSymbol?_symbol (op : BinaryOp) : BinaryOp.ofSymbol? op.symbol = some op := by
  cases op <;> decide

namespace Syntax

/-! ## Leaves -/

/-- A name, or the name of a file, where it was written. -/
structure Name where
  text : String
  span : Span
  deriving DecidableEq, Repr

/-- A label in front of a statement; an exported one is seen by the files that import this one. -/
structure LabelDecl where
  name : String
  exported : Bool
  span : Span
  deriving DecidableEq, Repr

/-! ## Expressions -/

mutual

/-- A type as written. -/
inductive TypeExpr where
  | named (name : String) (span : Span)
  | array (inner : TypeExpr) (size : Expr) (span : Span)

/-- What follows an expression to reach into its value. -/
inductive Accessor where
  | call (arguments : List Expr)
  | index (index : Expr)

/-- An expression. -/
inductive Expr where
  | cast (operand : Expr) (target : TypeExpr) (span : Span)
  | access (base : Expr) (accessors : List Accessor) (span : Span)
  | int (value : Word128) (span : Span)
  | str (text : String) (span : Span)
  | variable (name : String) (span : Span)
  | label (name : String) (span : Span)
  | unary (op : UnaryOp) (operand : Expr) (span : Span)
  | binary (op : BinaryOp) (left right : Expr) (span : Span)

end

/-- Where an expression was written. -/
def Expr.span : Expr → Span
  | .cast _ _ s => s
  | .access _ _ s => s
  | .int _ s => s
  | .str _ s => s
  | .variable _ s => s
  | .label _ s => s
  | .unary _ _ s => s
  | .binary _ _ _ s => s

/-- A field of a struct. -/
structure Field where
  name : String
  type : TypeExpr
  span : Span

/-! ## Statements -/

mutual

/-- A command with its labels. -/
inductive Stmt where
  | mk (labels : List LabelDecl) (command : Command) (span : Span)

/-- What a statement does. -/
inductive Command where
  /-- make the types and labels of another file visible and place its code here -/
  | importFile (file : Name)
  | evaluate (value : Expr)
  /-- continue at an address; labels may stand at the command itself -/
  | goto (target : Expr) (labels : List LabelDecl)
  | define (name : Name) (value : Expr)
  | defineArray (name : Name) (size : Expr) (element : Option TypeExpr)
  | assign (target value : Expr)
  | block (body : List Stmt)
  | branch (condition : Expr) (taken : Stmt) (otherwise : Option Stmt)
  /-- repeat the body while the condition holds; the body may come before the first test -/
  | loop (condition : Expr) (body : Stmt) (bodyFirst : Bool)
  | struct (name : Name) (fields : List Field)
  /-- raw words in place -/
  | words (values : List Expr)
  | pragma (name : Name) (value : Option Expr)

end

/-- The tree of a file. -/
abbrev Program := List Stmt

/-- The labels in front of a statement. -/
def Stmt.labels : Stmt → List LabelDecl
  | .mk labels _ _ => labels

/-- The command of a statement. -/
def Stmt.command : Stmt → Command
  | .mk _ command _ => command

/-- Where a statement was written. -/
def Stmt.span : Stmt → Span
  | .mk _ _ span => span

end Syntax

end ByteJump
