import ByteJump.Path

set_option autoImplicit false

/-!
# Positions, spans and locations

A position is a line and a column, a span runs from one position to another, and a location is a
span inside a file.
-/

namespace ByteJump

/-- A line and a column. -/
structure Position where
  line : UInt64
  column : UInt64
  deriving DecidableEq, Repr, Inhabited

/-- The stretch of a file from the first character of a part of it to just past its last. -/
structure Span where
  start : Position
  stop : Position
  deriving DecidableEq, Repr, Inhabited

/-- The position of parts that have none. -/
def Position.zero : Position := ⟨0, 0⟩

/-- The span of parts that have none. -/
def Span.zero : Span := ⟨.zero, .zero⟩

/-- A span inside a file. -/
structure Location where
  file : Path
  span : Span
  deriving Repr, Inhabited

/-- Line and column with a colon between them. -/
def Position.text (p : Position) : String :=
  toString p.line.toNat ++ ":" ++ toString p.column.toNat

/-- The file and both ends of the span. -/
def Location.text (l : Location) : String :=
  l.file.text ++ " from " ++ l.span.start.text ++ " to " ++ l.span.stop.text

end ByteJump
