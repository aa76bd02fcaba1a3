import ByteJump.Syntax.Decode

set_option autoImplicit false

/-!
# Trees as text

Each part of a syntax tree has a datum (`toDatum`), and a datum of the right kind has a part
(`ofDatum?`).  Through them and the schema every part can be written as JSON text and read from it.
-/

namespace ByteJump

/-! ## From trees to data -/

/-- The datum of a position. -/
def Position.toDatum (p : Position) : Syntax.Datum :=
  .record .position [.number p.line, .number p.column]

/-- The datum of a span. -/
def Span.toDatum (s : Span) : Syntax.Datum :=
  .record .span [s.start.toDatum, s.stop.toDatum]

namespace Syntax

/-- The datum of a name. -/
def Name.toDatum (n : Name) : Datum := .record .name [.text n.text, n.span.toDatum]

/-- The datum of a label. -/
def LabelDecl.toDatum (l : LabelDecl) : Datum :=
  .record .label [.text l.name, .flag l.exported, l.span.toDatum]

mutual

/-- The datum of a type. -/
def TypeExpr.toDatum : TypeExpr → Datum
  | .named name span => .record .namedType [.text name, span.toDatum]
  | .array inner size span =>
      .record .arrayType [inner.toDatum, size.toDatum, span.toDatum]

/-- The datum of an accessor. -/
def Accessor.toDatum : Accessor → Datum
  | .call arguments => .record .call [.list (Expr.toData arguments)]
  | .index index => .record .index [index.toDatum]

/-- The data of accessors. -/
def Accessor.toData : List Accessor → List Datum
  | [] => []
  | a :: as => a.toDatum :: Accessor.toData as

/-- The datum of an expression. -/
def Expr.toDatum : Expr → Datum
  | .cast operand target span =>
      .record .cast [operand.toDatum, target.toDatum, span.toDatum]
  | .access base accessors span =>
      .record .access [base.toDatum, .list (Accessor.toData accessors), span.toDatum]
  | .int value span => .record .int [.literal value, span.toDatum]
  | .str text span => .record .str [.text text, span.toDatum]
  | .variable name span => .record .variable [.text name, span.toDatum]
  | .label name span => .record .labelUse [.text name, span.toDatum]
  | .unary op operand span =>
      .record .unary [.unaryOp op, operand.toDatum, span.toDatum]
  | .binary op left right span =>
      .record .binary [.binaryOp op, left.toDatum, right.toDatum, span.toDatum]

/-- The data of expressions. -/
def Expr.toData : List Expr → List Datum
  | [] => []
  | e :: es => e.toDatum :: Expr.toData es

end

/-- The datum of a field of a struct. -/
def Field.toDatum (f : Field) : Datum :=
  .record .field [.text f.name, f.type.toDatum, f.span.toDatum]

/-- The datum of something that may be absent. -/
def optionalDatum {α : Type} (toDatum : α → Datum) : Option α → Datum
  | some a => toDatum a
  | none => .absent

mutual

/-- The datum of a statement. -/
def Stmt.toDatum : Stmt → Datum
  | .mk labels command span =>
      .record .stmt
        [.list (labels.map LabelDecl.toDatum), command.toDatum, span.toDatum]

/-- The data of statements. -/
def Stmt.toData : List Stmt → List Datum
  | [] => []
  | s :: ss => s.toDatum :: Stmt.toData ss

/-- The datum of a statement that may be absent. -/
def Stmt.optionDatum : Option Stmt → Datum
  | some s => s.toDatum
  | none => .absent

/-- The datum of a command. -/
def Command.toDatum : Command → Datum
  | .importFile file => .record .importFile [file.toDatum]
  | .evaluate value => .record .evaluate [value.toDatum]
  | .goto target labels =>
      .record .goto [target.toDatum, .list (labels.map LabelDecl.toDatum)]
  | .define name value => .record .define [name.toDatum, value.toDatum]
  | .defineArray name size element =>
      .record .defineArray
        [name.toDatum, size.toDatum, optionalDatum TypeExpr.toDatum element]
  | .assign target value => .record .assign [target.toDatum, value.toDatum]
  | .block body => .record .block [.list (Stmt.toData body)]
  | .branch condition taken otherwise =>
      .record .branch [condition.toDatum, taken.toDatum, Stmt.optionDatum otherwise]
  | .loop condition body bodyFirst =>
      .record .loop [condition.toDatum, body.toDatum, .flag bodyFirst]
  | .struct name fields =>
      .record .struct [name.toDatum, .list (fields.map Field.toDatum)]
  | .words values => .record .words [.list (Expr.toData values)]
  | .pragma name value => .record .pragma [name.toDatum, optionalDatum Expr.toDatum value]

end

end Syntax

/-! ## From data to trees -/

open Syntax in
/-- The position of a datum. -/
def Position.ofDatum? : Datum → Option Position
  | .record .position [.number line, .number column] => some ⟨line, column⟩
  | _ => none

open Syntax in
/-- The span of a datum. -/
def Span.ofDatum? : Datum → Option Span
  | .record .span [start, stop] => do
      return ⟨← Position.ofDatum? start, ← Position.ofDatum? stop⟩
  | _ => none

namespace Syntax

/-- The name of a datum. -/
def Name.ofDatum? : Datum → Option Name
  | .record .name [.text text, span] => do return ⟨text, ← Span.ofDatum? span⟩
  | _ => none

/-- The label of a datum. -/
def LabelDecl.ofDatum? : Datum → Option LabelDecl
  | .record .label [.text name, .flag exported, span] => do
      return ⟨name, exported, ← Span.ofDatum? span⟩
  | _ => none

/-- The labels of a datum. -/
def LabelDecl.ofList? : Datum → Option (List LabelDecl)
  | .list items => items.mapM LabelDecl.ofDatum?
  | _ => none

mutual

/-- The type of a datum. -/
def TypeExpr.ofDatum? : Datum → Option TypeExpr
  | .record .namedType [.text name, span] => do return .named name (← Span.ofDatum? span)
  | .record .arrayType [inner, size, span] => do
      return .array (← TypeExpr.ofDatum? inner) (← Expr.ofDatum? size) (← Span.ofDatum? span)
  | _ => none

/-- The accessor of a datum. -/
def Accessor.ofDatum? : Datum → Option Accessor
  | .record .call [.list arguments] => do return .call (← Expr.ofData? arguments)
  | .record .index [index] => do return .index (← Expr.ofDatum? index)
  | _ => none

/-- The accessors of data. -/
def Accessor.ofData? : List Datum → Option (List Accessor)
  | [] => some []
  | d :: ds => do return (← Accessor.ofDatum? d) :: (← Accessor.ofData? ds)

/-- The expression of a datum. -/
def Expr.ofDatum? : Datum → Option Expr
  | .record .cast [operand, target, span] => do
      return .cast (← Expr.ofDatum? operand) (← TypeExpr.ofDatum? target) (← Span.ofDatum? span)
  | .record .access [base, .list accessors, span] => do
      return .access (← Expr.ofDatum? base) (← Accessor.ofData? accessors)
        (← Span.ofDatum? span)
  | .record .int [.literal value, span] => do return .int value (← Span.ofDatum? span)
  | .record .str [.text text, span] => do return .str text (← Span.ofDatum? span)
  | .record .variable [.text name, span] => do return .variable name (← Span.ofDatum? span)
  | .record .labelUse [.text name, span] => do return .label name (← Span.ofDatum? span)
  | .record .unary [.unaryOp op, operand, span] => do
      return .unary op (← Expr.ofDatum? operand) (← Span.ofDatum? span)
  | .record .binary [.binaryOp op, left, right, span] => do
      return .binary op (← Expr.ofDatum? left) (← Expr.ofDatum? right) (← Span.ofDatum? span)
  | _ => none

/-- The expressions of data. -/
def Expr.ofData? : List Datum → Option (List Expr)
  | [] => some []
  | d :: ds => do return (← Expr.ofDatum? d) :: (← Expr.ofData? ds)

end

/-- The field of a datum. -/
def Field.ofDatum? : Datum → Option Field
  | .record .field [.text name, type, span] => do
      return ⟨name, ← TypeExpr.ofDatum? type, ← Span.ofDatum? span⟩
  | _ => none

/-- Something that may be absent, from its datum. -/
def ofOptional? {α : Type} (ofDatum? : Datum → Option α) : Datum → Option (Option α)
  | .absent => some none
  | d => (ofDatum? d).map some

mutual

/-- The statement of a datum. -/
def Stmt.ofDatum? : Datum → Option Stmt
  | .record .stmt [labels, command, span] => do
      return .mk (← LabelDecl.ofList? labels) (← Command.ofDatum? command)
        (← Span.ofDatum? span)
  | _ => none

/-- The statements of data. -/
def Stmt.ofData? : List Datum → Option (List Stmt)
  | [] => some []
  | d :: ds => do return (← Stmt.ofDatum? d) :: (← Stmt.ofData? ds)

/-- The command of a datum. -/
def Command.ofDatum? : Datum → Option Command
  | .record .importFile [file] => do return .importFile (← Name.ofDatum? file)
  | .record .evaluate [value] => do return .evaluate (← Expr.ofDatum? value)
  | .record .goto [target, labels] => do
      return .goto (← Expr.ofDatum? target) (← LabelDecl.ofList? labels)
  | .record .define [name, value] => do
      return .define (← Name.ofDatum? name) (← Expr.ofDatum? value)
  | .record .defineArray [name, size, element] => do
      return .defineArray (← Name.ofDatum? name) (← Expr.ofDatum? size)
        (← ofOptional? TypeExpr.ofDatum? element)
  | .record .assign [target, value] => do
      return .assign (← Expr.ofDatum? target) (← Expr.ofDatum? value)
  | .record .block [.list body] => do return .block (← Stmt.ofData? body)
  | .record .branch [condition, taken, .absent] => do
      return .branch (← Expr.ofDatum? condition) (← Stmt.ofDatum? taken) none
  | .record .branch [condition, taken, otherwise] => do
      return .branch (← Expr.ofDatum? condition) (← Stmt.ofDatum? taken)
        (some (← Stmt.ofDatum? otherwise))
  | .record .loop [condition, body, .flag bodyFirst] => do
      return .loop (← Expr.ofDatum? condition) (← Stmt.ofDatum? body) bodyFirst
  | .record .struct [name, .list fields] => do
      return .struct (← Name.ofDatum? name) (← fields.mapM Field.ofDatum?)
  | .record .words [.list values] => do return .words (← Expr.ofData? values)
  | .record .pragma [name, value] => do
      return .pragma (← Name.ofDatum? name) (← ofOptional? Expr.ofDatum? value)
  | _ => none

end

/-! ## Text -/

/-- A part of a tree that the format can carry: its kind, its datum, and the way back. -/
class Portable (α : Type) where
  kind : Kind
  toDatum : α → Datum
  ofDatum? : Datum → Option α

instance : Portable Span := ⟨.record (.only .span), Span.toDatum, Span.ofDatum?⟩

instance : Portable TypeExpr := ⟨.record .typeExpr, TypeExpr.toDatum, TypeExpr.ofDatum?⟩

instance : Portable Expr := ⟨.record .expr, Expr.toDatum, Expr.ofDatum?⟩

instance : Portable Stmt := ⟨.record (.only .stmt), Stmt.toDatum, Stmt.ofDatum?⟩

instance : Portable Program where
  kind := .list (.only .stmt)
  toDatum program := .list (Stmt.toData program)
  ofDatum?
    | .list items => Stmt.ofData? items
    | _ => none

variable {α : Type} [Portable α]

/-- The part a datum of its kind stands for. -/
def ofDatum (d : Datum) : Except DecodeFault α :=
  match Portable.ofDatum? d with
  | some a => .ok a
  | none => .error (.wrongKind (Portable.kind α))

/-- The part that a document holds. -/
def fromJson (v : Json.Value) : Except DecodeFault α := do
  ofDatum (← decodeValue (Portable.kind α) v)

/-- The part that a text holds. -/
def fromText (text : String) : Except DecodeFault α := do
  ofDatum (← decodeText (Portable.kind α) text)

/-- A part as a document. -/
def toJson (a : α) : Json.Value := (Portable.toDatum a).encode

/-- A part as text, without white space. -/
def toText (a : α) : String := (toJson a).print

/-- Two parts are the same tree. -/
def same (a b : α) : Bool := Portable.toDatum a == Portable.toDatum b

end Syntax

end ByteJump
