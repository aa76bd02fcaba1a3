import ByteJump.Image
import ByteJump.Text.Number

set_option autoImplicit false

/-!
# Traces

A trace follows the instructions of an image from its entry as they are laid out, before the
program has changed any of them.  It ends at an instruction whose successor is itself or is not
known yet (zero), at an instruction that was shown before, or outside the image.
-/

namespace ByteJump

open Text Memory

namespace Layout

/-- An address as a place in a region where it lies in one. -/
def describe (layout : Layout) (address : Nat) : String :=
  if address < stackAddress then "entry+" ++ toString address
  else if address < immediate then "sp+" ++ toString (address - stackAddress)
  else if address < immediate + registerSize then "imm+" ++ toString (address - immediate)
  else if address < layout.addTable then
    "r" ++ toString (address / registerSize - 2) ++ "+" ++ toString (address % registerSize)
  else if address < advance layout.addTable addTableSize then
    let offset := address - layout.addTable
    "add[" ++ toString (offset / 256) ++ "][" ++ toString (offset % 256) ++ "]"
  else if layout.notTable ≤ address ∧ address < advance layout.notTable notTableSize then
    "not[" ++ toString (address - layout.notTable) ++ "]"
  else hex address

/-- An instruction: what it copies, or that it only jumps or halts, and its successor unless that
stands right behind it. -/
def showInstruction (layout : Layout) (address source destination next : Nat) : String :=
  hex8 address ++ ": " ++
    if next = address then "halt"
    else if source = 0 ∧ destination = 0 then "jmp " ++ hex next
    else
      layout.describe destination ++ " <- " ++ layout.describe source ++
        if next = advance address instructionSize then "" else "  -> " ++ hex next

end Layout

namespace Image

/-- The source, destination and successor of the instruction at an address. -/
def instruction? (image : Image) (address : Nat) : Option (Nat × Nat × Nat) := do
  let source ← image.word? (address + sourceField)
  let destination ← image.word? (address + destinationField)
  let next ← image.word? (address + nextField)
  return (source, destination, next)

/-- At most `limit` lines of the trace from `address`; `seen` are the addresses shown before. -/
def traceFrom (image : Image) : Nat → List Nat → Nat → List String
  | 0, _, _ => []
  | limit + 1, seen, address =>
      if address ∈ seen then []
      else
        match image.instruction? address with
        | none => [hex8 address ++ ": <outside image>"]
        | some (source, destination, next) =>
            image.layout.showInstruction address source destination next ::
              if next = address ∨ next = 0 then []
              else traceFrom image limit (address :: seen) next

/-- At most `limit` lines of the trace from the entry. -/
def trace (image : Image) (limit : Nat) : List String := image.traceFrom limit [] image.entry

/-- Size, entry and regions of an image, and at most `limit` lines of its trace. -/
def summary (image : Image) (limit : Nat) : List String :=
  let layout := image.layout
  [ "size:       " ++ toString image.size ++ " bytes",
    "entry:      " ++ hex image.entry,
    "add table:  " ++ hex layout.addTable,
    "not table:  " ++ hex layout.notTable,
    "code:       " ++ hex layout.codeStart ++ ".." ++ hex (layout.halt + instructionSize) ]
    ++ image.trace limit

/-- The summary as text, a line feed behind each line. -/
def render (image : Image) (limit : Nat) : String :=
  String.join ((image.summary limit).map fun line => line ++ "\n")

end Image

end ByteJump
