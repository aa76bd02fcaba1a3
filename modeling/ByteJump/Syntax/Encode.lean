import ByteJump.Json.Reader
import ByteJump.Syntax.Literal
import ByteJump.Syntax.Schema

set_option autoImplicit false

/-!
# Data as JSON

A record is written as an object: its tag first, if its family has one, then all its fields in the
order of the schema.  Nothing is left out.
-/

namespace ByteJump.Syntax

/-- The key of the tag of a record. -/
def tagKey : String := "type"

/-- The tag of a shape as the first field of an object. -/
def Shape.tagField (shape : Shape) : List (Json.Text × Json.Value) :=
  match shape.tag with
  | some tag => [(some tagKey, .ofString tag)]
  | none => []

namespace Datum

mutual

/-- The document of a datum. -/
def encode : Datum → Json.Value
  | .text s => .ofString s
  | .number n => .ofUInt64 n
  | .flag b => .bool b
  | .literal w => encodeLiteral w
  | .unaryOp op => .ofString op.symbol
  | .binaryOp op => .ofString op.symbol
  | .absent => .null
  | .list items => .array (encodeList items)
  | .record shape fields => .object (shape.tagField ++ encodeFields shape.fields fields)

/-- The documents of several data. -/
def encodeList : List Datum → List Json.Value
  | [] => []
  | d :: ds => encode d :: encodeList ds

/-- Data under the names of their fields. -/
def encodeFields : List FieldSpec → List Datum → List (Json.Text × Json.Value)
  | spec :: specs, d :: ds => (some spec.name, encode d) :: encodeFields specs ds
  | _, _ => []

end

end Datum

end ByteJump.Syntax
