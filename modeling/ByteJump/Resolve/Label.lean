import ByteJump.Constant

set_option autoImplicit false

/-!
# Binding label uses

When a whole file is known, each use of a label gets the label its name means in the scope it
stands in.  The first use in the order of the text that has none is the fault.
-/

namespace ByteJump

/-- The label a name means in a scope. -/
abbrev LabelFinder : Type := Nat → String → Option Label

mutual

/-- An expression with its label uses bound. -/
def Expr.bind (find : LabelFinder) : Expr → Except Fault Expr
  | .label use i =>
      match find use.scope use.name with
      | some found => .ok (.label { use with target := some found } i)
      | none => .error (.unresolvedLabel use.name i.site)
  | .cast operand i => do return .cast (← Expr.bind find operand) i
  | .unary op operand i => do return .unary op (← Expr.bind find operand) i
  | .binary op left right i => do
      let left ← Expr.bind find left
      let right ← Expr.bind find right
      return .binary op left right i
  | .index base indices i => do
      let base ← Expr.bind find base
      let indices ← Expr.bindList find indices
      return .index base indices i
  | .int value i => .ok (.int value i)
  | .str text i => .ok (.str text i)
  | .variable v i => .ok (.variable v i)

/-- Expressions with their label uses bound. -/
def Expr.bindList (find : LabelFinder) : List Expr → Except Fault (List Expr)
  | [] => .ok []
  | e :: es => do
      let e ← Expr.bind find e
      let es ← Expr.bindList find es
      return e :: es

end

mutual

/-- A statement with its label uses bound. -/
def Stmt.bind (find : LabelFinder) : Stmt → Except Fault Stmt
  | .mk labels action site => do return .mk labels (← Action.bind find action) site

/-- Statements with their label uses bound. -/
def Stmt.bindList (find : LabelFinder) : List Stmt → Except Fault (List Stmt)
  | [] => .ok []
  | s :: ss => do
      let s ← Stmt.bind find s
      let ss ← Stmt.bindList find ss
      return s :: ss

/-- A statement that may be absent, with its label uses bound. -/
def Stmt.bindOption (find : LabelFinder) : Option Stmt → Except Fault (Option Stmt)
  | some s => do return some (← Stmt.bind find s)
  | none => .ok none

/-- An action with its label uses bound; an imported file has its own bound already. -/
def Action.bind (find : LabelFinder) : Action → Except Fault Action
  | .nothing => .ok .nothing
  | .place file => .ok (.place file)
  | .evaluate value => do return .evaluate (← Expr.bind find value)
  | .goto target => do return .goto (← Expr.bind find target)
  | .define v value => do return .define v (← Expr.bind find value)
  | .reserve v => .ok (.reserve v)
  | .assign target value => do
      let target ← Expr.bind find target
      let value ← Expr.bind find value
      return .assign target value
  | .block body => do return .block (← Stmt.bindList find body)
  | .branch condition taken otherwise => do
      let condition ← Expr.bind find condition
      let taken ← Stmt.bind find taken
      let otherwise ← Stmt.bindOption find otherwise
      return .branch condition taken otherwise
  | .loop condition body bodyFirst => do
      let condition ← Expr.bind find condition
      let body ← Stmt.bind find body
      return .loop condition body bodyFirst
  | .words values => do return .words (← Expr.bindList find values)

end

end ByteJump
