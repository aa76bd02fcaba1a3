import ByteJump.Resolve.Basic

set_option autoImplicit false

/-!
# Resolving expressions and types

An integer literal has a type of its own, a string and a label have theirs, a dereference yields a
byte, and an operator yields the type of its operands: two operands have to have the same type, and
a single one has to be a number.  Only arrays can be indexed and nothing can be called.  Sizes of
arrays are constants; a size beyond the largest word counts as the largest word.
-/

namespace ByteJump.Resolve

/-- The expression has to be a number. -/
def expectInteger (e : Expr) : Resolving Unit :=
  if e.type.isInteger then pure ()
  else fail (.typeMismatch "integer" e.type.text e.site)

/-- The type of an operator with one operand. -/
def unaryType (ctx : Context) (op : UnaryOp) (operand : Ty) : Ty :=
  match op with
  | .deref => ctx.builtins.word .n8
  | _ => operand

mutual

/-- An expression with its names and types resolved. -/
def expr (ctx : Context) : Syntax.Expr → Resolving Expr
  | .int value span => return .int value ⟨ctx.builtins.literal, ctx.locate span⟩
  | .str text span => return .str text ⟨ctx.builtins.string, ctx.locate span⟩
  | .variable name span => do
      let site := ctx.locate span
      match (← get).scopes.findVariable name with
      | some v => return .variable v ⟨v.type, site⟩
      | none => fail (.undefined .variable name site)
  | .label name span => do
      let scope := (← get).scopes.current
      return .label ⟨name, scope, none⟩ ⟨ctx.builtins.address, ctx.locate span⟩
  | .cast operand target span => do
      let operand ← expr ctx operand
      let type ← typeExpr ctx target
      return .cast operand ⟨type, ctx.locate span⟩
  | .unary op operand span => do
      let operand ← expr ctx operand
      expectInteger operand
      return .unary op operand ⟨unaryType ctx op operand.type, ctx.locate span⟩
  | .binary op left right span => do
      let site := ctx.locate span
      let left ← expr ctx left
      let right ← expr ctx right
      if left.type.same right.type then return .binary op left right ⟨left.type, site⟩
      else fail (.typeMismatch left.type.text right.type.text site)
  | .access base accessors span => do
      let site := ctx.locate span
      let base ← expr ctx base
      let (type, indices) ← access ctx site base.type accessors
      return .index base indices ⟨type, site⟩

/-- The type a chain of accessors reaches from a type, and the indices on the way. -/
def access (ctx : Context) (site : Location) (type : Ty) :
    List Syntax.Accessor → Resolving (Ty × List Expr)
  | [] => return (type, [])
  | .call arguments :: _ => do
      exprs ctx arguments
      fail (.invalidAccess ("`" ++ type.text ++ "` is not callable") site)
  | .index index :: rest => do
      let index ← expr ctx index
      expectInteger index
      match type with
      | .array inner _ => do
          let (type, indices) ← access ctx site inner rest
          return (type, index :: indices)
      | _ => fail (.invalidAccess ("cannot index into `" ++ type.text ++ "`") site)

/-- Expressions that are resolved for their faults only. -/
def exprs (ctx : Context) : List Syntax.Expr → Resolving Unit
  | [] => pure ()
  | e :: es => do
      let _ ← expr ctx e
      exprs ctx es

/-- A type with its names resolved and its sizes computed. -/
def typeExpr (ctx : Context) : Syntax.TypeExpr → Resolving Ty
  | .named name span => do
      match (← get).scopes.findType name with
      | some type => return type
      | none => fail (.undefined .type name (ctx.locate span))
  | .array inner size _ => do
      let inner ← typeExpr ctx inner
      let size ← expr ctx size
      let count ← ofExcept (Constant.evaluate Constant.unplaced size)
      return .array inner (min count.toNat maxWord)

end

/-- The value of an expression that has to be constant. -/
def constant (ctx : Context) (e : Syntax.Expr) : Resolving Word128 := do
  let e ← expr ctx e
  ofExcept (Constant.evaluate Constant.unplaced e)

/-- The number of elements a constant gives an array. -/
def count (ctx : Context) (e : Syntax.Expr) : Resolving Nat := do
  let value ← constant ctx e
  return min value.toNat maxWord

/-- A condition has to be a number. -/
def condition (ctx : Context) (e : Syntax.Expr) : Resolving Expr := do
  let e ← expr ctx e
  expectInteger e
  return e

end ByteJump.Resolve
