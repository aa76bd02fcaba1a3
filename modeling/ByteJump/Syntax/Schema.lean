import ByteJump.Syntax.Tree

set_option autoImplicit false

/-!
# The schema of the tree format

A tree travels as nested records.  Each shape of record has named fields in a fixed order, each
with a kind and perhaps a default.  Commands, types, accessors and expressions come in several
shapes; a tag tells the shapes of such a family apart.  `Datum` is a tree of records without names:
the fields stand in the order of the schema.
-/

namespace ByteJump.Syntax

/-- The shapes of records. -/
inductive Shape where
  | position
  | span
  | name
  | label
  | field
  | stmt
  | importFile
  | evaluate
  | goto
  | define
  | defineArray
  | assign
  | block
  | branch
  | loop
  | struct
  | words
  | pragma
  | namedType
  | arrayType
  | call
  | index
  | cast
  | access
  | int
  | str
  | variable
  | labelUse
  | unary
  | binary
  deriving DecidableEq, Repr

/-- A place for a record: one shape, or a family of shapes told apart by their tag. -/
inductive Family where
  | only (shape : Shape)
  | command
  | typeExpr
  | accessor
  | expr
  deriving DecidableEq, Repr

/-- What may stand in a field. -/
inductive Kind where
  | text
  /-- a natural number of 64 bits -/
  | number
  | flag
  /-- an integer literal of 128 bits -/
  | literal
  | unaryOp
  | binaryOp
  | record (family : Family)
  | list (family : Family)
  /-- a record or nothing -/
  | optional (family : Family)
  deriving DecidableEq, Repr

/-- A tree of records; the fields of a record stand in the order of its schema. -/
inductive Datum where
  | text (value : String)
  | number (value : UInt64)
  | flag (value : Bool)
  | literal (value : Word128)
  | unaryOp (op : UnaryOp)
  | binaryOp (op : BinaryOp)
  /-- nothing, where a record is optional -/
  | absent
  | list (items : List Datum)
  | record (shape : Shape) (fields : List Datum)
  deriving Repr

/-- A field of a record. -/
structure FieldSpec where
  name : String
  kind : Kind
  /-- what the field holds when it is left out -/
  default : Option Datum

/-! ## Families -/

/-- The tag that names a shape inside its family. -/
def Shape.tag : Shape → Option String
  | .position | .span | .name | .label | .field | .stmt => none
  | .importFile => some "import"
  | .evaluate => some "exprst"
  | .goto => some "goto"
  | .define => some "let"
  | .defineArray => some "let[]"
  | .assign => some "assign"
  | .block => some "block"
  | .branch => some "if"
  | .loop => some "while"
  | .struct => some "structdef"
  | .words => some "bbj"
  | .pragma => some "pragma"
  | .namedType => some "typeid"
  | .arrayType => some "arraytype"
  | .call => some "call"
  | .index => some "index"
  | .cast => some "cast"
  | .access => some "access"
  | .int => some "posint"
  | .str => some "strlit"
  | .variable => some "id"
  | .labelUse => some "label"
  | .unary => some "unary"
  | .binary => some "binary"

/-- The shapes of a family, in the order that numbers them. -/
def Family.shapes : Family → List Shape
  | .only shape => [shape]
  | .command =>
      [.importFile, .evaluate, .goto, .define, .defineArray, .assign, .block, .branch, .loop,
        .struct, .words, .pragma]
  | .typeExpr => [.namedType, .arrayType]
  | .accessor => [.call, .index]
  | .expr => [.cast, .access, .int, .str, .variable, .labelUse, .unary, .binary]

/-- The family has several shapes, so its records carry a tag. -/
def Family.tagged : Family → Bool
  | .only _ => false
  | _ => true

/-- The shape of a family with the given tag. -/
def Family.ofTag? (family : Family) (tag : String) : Option Shape :=
  family.shapes.find? fun shape => shape.tag = some tag

/-! ## Fields -/

namespace FieldSpec

/-- A field that has to be there. -/
def required (name : String) (kind : Kind) : FieldSpec := ⟨name, kind, none⟩

/-- The position of parts that have none. -/
def noPosition : Datum := .record .position [.number 0, .number 0]

/-- Where a part was written; left out, all numbers are zero. -/
def location : FieldSpec :=
  ⟨"location", .record (.only .span), some (.record .span [noPosition, noPosition])⟩

/-- Labels; left out, there are none. -/
def labels : FieldSpec := ⟨"labels", .list (.only .label), some (.list [])⟩

/-- A flag; left out, it is not set. -/
def flag (name : String) : FieldSpec := ⟨name, .flag, some (.flag false)⟩

/-- An optional record; left out, it is nothing. -/
def optional (name : String) (family : Family) : FieldSpec :=
  ⟨name, .optional family, some .absent⟩

end FieldSpec

open FieldSpec in
/-- The fields of a shape, in order. -/
def Shape.fields : Shape → List FieldSpec
  | .position => [required "line" .number, required "column" .number]
  | .span =>
      [required "start" (.record (.only .position)), required "end" (.record (.only .position))]
  | .name => [required "value" .text, location]
  | .label => [required "value" .text, flag "extern", location]
  | .field => [required "name" .text, required "ftype" (.record .typeExpr), location]
  | .stmt => [labels, required "st" (.record .command), location]
  | .importFile => [required "imp" (.record (.only .name))]
  | .evaluate => [required "expr" (.record .expr)]
  | .goto => [required "dest" (.record .expr), labels]
  | .define => [required "name" (.record (.only .name)), required "val" (.record .expr)]
  | .defineArray =>
      [required "name" (.record (.only .name)), required "asize" (.record .expr),
        optional "elem" .typeExpr]
  | .assign => [required "dst" (.record .expr), required "src" (.record .expr)]
  | .block => [required "body" (.list (.only .stmt))]
  | .branch =>
      [required "cond" (.record .expr), required "then" (.record (.only .stmt)),
        optional "otherwise" (.only .stmt)]
  | .loop =>
      [required "cond" (.record .expr), required "body" (.record (.only .stmt)), flag "isDo"]
  | .struct =>
      [required "name" (.record (.only .name)), required "fields" (.list (.only .field))]
  | .words => [required "body" (.list .expr)]
  | .pragma => [required "name" (.record (.only .name)), optional "value" .expr]
  | .namedType => [required "value" .text, location]
  | .arrayType =>
      [required "inner" (.record .typeExpr), required "size" (.record .expr), location]
  | .call => [required "args" (.list .expr)]
  | .index => [required "index" (.record .expr)]
  | .cast => [required "a" (.record .expr), required "restype" (.record .typeExpr), location]
  | .access => [required "base" (.record .expr), required "list" (.list .accessor), location]
  | .int => [required "value" .literal, location]
  | .str => [required "value" .text, location]
  | .variable => [required "value" .text, location]
  | .labelUse => [required "value" .text, location]
  | .unary => [required "op" .unaryOp, required "a" (.record .expr), location]
  | .binary =>
      [required "op" .binaryOp, required "a" (.record .expr), required "b" (.record .expr),
        location]

/-! ## Equality of data -/

namespace Datum

mutual

/-- Equal data. -/
def same : Datum → Datum → Bool
  | .text a, .text b => a == b
  | .number a, .number b => a == b
  | .flag a, .flag b => a == b
  | .literal a, .literal b => a == b
  | .unaryOp a, .unaryOp b => a == b
  | .binaryOp a, .binaryOp b => a == b
  | .absent, .absent => true
  | .list as, .list bs => sameList as bs
  | .record s as, .record t bs => s == t && sameList as bs
  | _, _ => false

/-- Equal lists of data. -/
def sameList : List Datum → List Datum → Bool
  | [], [] => true
  | a :: as, b :: bs => same a b && sameList as bs
  | _, _ => false

end

mutual

theorem eq_of_same : (a b : Datum) → same a b = true → a = b
  | .list as, b, h => by
      cases b with
      | list bs => rw [sameList_eq as bs (by simpa [same] using h)]
      | _ => simp [same] at h
  | .record s as, b, h => by
      cases b with
      | record t bs =>
          simp only [same, Bool.and_eq_true, beq_iff_eq] at h
          rw [h.1, sameList_eq as bs h.2]
      | _ => simp [same] at h
  | .text _, b, h | .number _, b, h | .flag _, b, h | .literal _, b, h | .unaryOp _, b, h
  | .binaryOp _, b, h | .absent, b, h => by
      cases b <;> simp_all [same]

theorem sameList_eq : (as bs : List Datum) → sameList as bs = true → as = bs
  | [], [], _ => rfl
  | [], _ :: _, h => by simp [sameList] at h
  | _ :: _, [], h => by simp [sameList] at h
  | a :: as, b :: bs, h => by
      simp only [sameList, Bool.and_eq_true] at h
      rw [eq_of_same a b h.1, sameList_eq as bs h.2]

end

mutual

theorem same_self : (a : Datum) → same a a = true
  | .list as => by simpa [same] using sameList_self as
  | .record s as => by simpa [same] using sameList_self as
  | .text _ | .number _ | .flag _ | .literal _ | .unaryOp _ | .binaryOp _ | .absent => by
      simp [same]

theorem sameList_self : (as : List Datum) → sameList as as = true
  | [] => rfl
  | a :: as => by simp [sameList, same_self a, sameList_self as]

end

instance : DecidableEq Datum := fun a b =>
  decidable_of_iff (same a b = true) ⟨eq_of_same a b, fun h => h ▸ same_self a⟩

end Datum

end ByteJump.Syntax
