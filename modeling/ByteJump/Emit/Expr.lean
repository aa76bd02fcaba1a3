import ByteJump.Emit.Basic

set_option autoImplicit false

/-!
# Emitting expressions

An expression is evaluated into the immediate register.  Additions and tests are looked up: an
operand byte is copied into the source address of the instruction behind it, which then reads the
table at that place.
-/

namespace ByteJump.Emit

open Assembly Memory

/-- The size of a type, which has to have one. -/
def widthOf (type : Ty) (site : Location) : Emitter Nat :=
  match type.width with
  | some width => return width
  | none => throw (Constant.noSize type site)

/-! ## Lookups -/

/-- Each byte of the immediate register from `i` on, `count` of them: 8 is added to the byte at
`total` if it is zero.  `flag` is a byte to work with. -/
def countZeros (total flag : Nat) : Nat → Nat → Emitter Unit
  | 0, _ => return ()
  | count + 1, i => do
      patched [(immediate + i, sourceField)] notTable flag
      patched [(total, sourceField + 1), (flag, sourceField)] addTable total
      countZeros total flag count (i + 1)

/-- The immediate register becomes 8 if its low `width` bytes are all zero, and 0 otherwise.  The
sum starts at `256 - 8 * width`, so it comes to zero exactly when 8 was added for every byte. -/
def logicalNot (width : Nat) (site : Location) : Emitter Unit := do
  let width := max 1 (min width registerSize)
  let mark := (← get).mark
  let scratch ← allocate 1 site
  let total := register scratch
  let flag := total + 1
  setByte total (UInt8.ofNat (256 - 8 * width))
  countZeros total flag width 0
  patched [(total, sourceField)] notTable immediate
  clearFrom 1
  release mark

/-! ## Expressions -/

/-- An expression evaluated into the immediate register. -/
def expr : Expr → Emitter Unit
  | .int value _ => setBytes immediate registerSize value.toNat
  | .str text _ => do
      let address ← stringConstant text
      setBytes immediate addressSize address
      setBytes (immediate + addressSize) addressSize text.utf8ByteSize
  | .variable v info =>
      match v.count with
      | some _ =>
          throw (.unimplemented ("array `" ++ v.name ++ "` used as a value") (some info.site))
      | none => do
          match (← get).bindings.register? v with
          | some r => copyRange (register r) immediate registerSize
          | none => throw (.internal ("variable `" ++ v.name ++ "` has no register"))
  | .label use info =>
      match use.target with
      | none => throw (.unresolvedLabel use.name info.site)
      | some label => do
          let address ← jumpOver [.word (.address (.label label) (some info.site))]
          copyRange address immediate addressSize
          clearFrom addressSize
  | .cast operand info => do
      expr operand
      let width ← widthOf info.type info.site
      if width < registerSize then clearFrom width
  | .unary op operand info =>
      match op with
      | .plus => expr operand
      | .not => do
          expr operand
          let width ← widthOf operand.type operand.site
          logicalNot width info.site
      | .deref => do
          expr operand
          patched (wholeField immediate sourceField) 0 immediate
          clearFrom 1
      | .negate | .complement =>
          throw (.unimplemented ("unary `" ++ op.symbol ++ "`") (some info.site))
  | .binary op left right info => do
      let width ← widthOf info.type info.site
      if op ≠ .add then
        throw (.unimplemented ("binary `" ++ op.symbol ++ "`") (some info.site))
      else if width ≠ 1 then
        throw (.unimplemented ("`+` on " ++ toString width ++ "-byte operands") (some info.site))
      else do
        let mark := (← get).mark
        expr left
        let saved ← allocate 1 info.site
        copy immediate (register saved)
        expr right
        patched [(register saved, sourceField + 1), (immediate, sourceField)] addTable immediate
        clearFrom 1
        release mark
  | .index _ _ info => throw (.unimplemented "array indexing" (some info.site))

end ByteJump.Emit
