import ByteJump.Emit.Expr

set_option autoImplicit false

/-!
# Emitting statements

A condition is turned into 0 or 8, the place of the chosen target in a table of two addresses.  The
table starts at a multiple of 16, so adding that number to an address in it changes the low byte
only.  Byte by byte the chosen address is copied into the successor of a jump.

The statements of an imported file are emitted where it is imported: a file that is placed only
once at its first import, any other at each.
-/

namespace ByteJump.Emit

open Assembly Memory

/-! ## Branches -/

/-- The bytes from `i` on, `count` of them, of the address in `table` that the immediate register
chooses, copied into the successor of the instruction at `jump`. -/
def select (table jump : Nat) : Nat → Nat → Emitter Unit
  | 0, _ => return ()
  | count + 1, i => do
      let selector := (← position) + 2 * instructionSize
      patched [(immediate, sourceField)] (addTable + (table % 256 + i) * 256)
        (selector + sourceField)
      instruction (table + i) (jump + nextField + i) (selector + instructionSize)
      select table jump count (i + 1)

/-- A jump to `taken` if the condition is not zero, and to `otherwise` if it is. -/
def branch (condition : Expr) (taken otherwise : Target) : Emitter Unit := do
  expr condition
  let width ← widthOf condition.type condition.site
  logicalNot width condition.site
  let table ← jumpOverAligned 16
    [.word (.address taken none), .word (.address otherwise none)]
  let jump := (← position) + addressSize * 3 * instructionSize
  select table jump addressSize 0
  instruction 0 0 0

/-! ## Stores and raw words -/

/-- A byte stored through a pointer. -/
def store (target value : Expr) : Emitter Unit :=
  match target with
  | .unary .deref pointer info => do
      let mark := (← get).mark
      expr pointer
      let saved ← allocate 1 info.site
      copyRange immediate (register saved) addressSize
      expr value
      patched (wholeField (register saved) destinationField) immediate 0
      release mark
  | _ => throw (.unsupportedTarget target.site)

/-- A word for each value; one that depends on a label is computed last. -/
def words : List Expr → Emitter Unit
  | [] => return ()
  | value :: values => do
      if value.mentionsLabel then push (.word (.constant value))
      else
        match (← get).constant value with
        | .ok n => push (.word (.known n))
        | .error fault => throw fault
      words values

/-- Raw words in a row, behind the strings they use. -/
def rawWords (values : List Expr) : Emitter Unit := do
  (Expr.listStrings values).forM fun text => do
    let _ ← stringConstant text
  words values

/-! ## Alignment -/

/-- A jump to the next multiple of `align`, unless the code is at one. -/
def alignTo (align : Nat) : Emitter Unit := do
  let here ← position
  if 1 < align ∧ here % align ≠ 0 then do
    let padding := (align - (here + instructionSize) % align) % align
    let _ ← jumpOver [.bytes (List.replicate padding 0)]

/-! ## Statements -/

mutual

/-- A statement at the address its labels name. -/
def stmt : Stmt → Emitter Unit
  | .mk labels act _ => do
      labels.forM placeLabel
      action act

/-- Statements in order. -/
def stmts : List Stmt → Emitter Unit
  | [] => return ()
  | s :: ss => do
      stmt s
      stmts ss

/-- The part of a condition that runs when the condition does not hold. -/
def alternative (condition : Expr) (taken finish : Target) (body : Emitter Unit) :
    Option Stmt → Emitter Unit
  | some s => do
      let otherwise ← newPoint "if.else"
      branch condition taken otherwise
      place taken
      body
      jumpTo finish
      place otherwise
      stmt s
  | none => do
      branch condition taken finish
      place taken
      body

/-- What a statement does. -/
def action : Action → Emitter Unit
  | .nothing => return ()
  | .place file => program file
  | .evaluate value => expr value
  | .goto target => do
      expr target
      let fields := wholeField immediate nextField
      patches (← behindPatches fields.length) fields
      instruction 0 0 0
  | .define v value => do
      expr value
      let r ← allocate 1 v.site
      modify fun s => { s with bindings := s.bindings.bind v r }
      copyRange immediate (register r) registerSize
  | .reserve v =>
      match v.count with
      | some count => do
          let r ← allocate count v.site
          modify fun s => { s with bindings := s.bindings.bind v r }
      | none =>
          throw (.internal ("`" ++ v.name ++ "` declared as an array without a length"))
  | .assign target value => store target value
  | .block body => do
      let mark := (← get).mark
      stmts body
      release mark
  | .branch condition taken otherwise => do
      let thenPoint ← newPoint "if.then"
      let finish ← newPoint "if.end"
      alternative condition thenPoint finish (stmt taken) otherwise
      place finish
  | .loop condition body false => do
      let top ← newPoint "while.top"
      let start ← newPoint "while.body"
      let finish ← newPoint "while.end"
      place top
      branch condition start finish
      place start
      stmt body
      jumpTo top
      place finish
  | .loop condition body true => do
      let top ← newPoint "do.top"
      let finish ← newPoint "do.end"
      place top
      stmt body
      branch condition top finish
      place finish
  | .words values => rawWords values

/-- An imported file. -/
def program : Program → Emitter Unit
  | .mk file statements _ pragmas => do
      let key := file.key
      let again := !pragmas.multi && (← get).placed.contains key
      if again then return ()
      else do
        if !pragmas.multi then modify fun s => { s with placed := key :: s.placed }
        alignTo pragmas.align
        stmts statements

end

end ByteJump.Emit
