import ByteJump.Syntax.Encode

set_option autoImplicit false

/-!
# Data from JSON

A record may be given as an object, with its fields and its tag in any order, or as an array of its
fields in the order of the schema, behind the tag if there is one.  Fields with a default may be
left out, in an array only at the end.  Unknown fields of an object are passed over; a known field
or a tag that is given twice is a fault.

Arrays and objects nest at most `depthLimit` deep.  A record with a tag is checked as a whole
before anything in it is read: it nests within the limit, its strings and keys are made of
characters, its numbers are finite.  Outside of tagged records only what is read is checked, and
what is passed over need only be JSON.  Inside an already checked record two more spellings are
understood: a tag may be the number of the shape in its family, and an operator may be the only
key of an object with nothing in it.
-/

namespace ByteJump.Syntax

/-- How deep arrays and objects may nest. -/
def depthLimit : Nat := 127

/-- Why a text is no tree. -/
inductive DecodeFault where
  /-- the text is not JSON -/
  | malformed
  /-- something stands behind the document -/
  | trailing
  /-- arrays and objects nest too deep -/
  | tooDeep
  /-- a tagged record nests too deep, or has a broken string or a number that is not finite -/
  | unfit
  /-- something else should stand here -/
  | wrongKind (expected : Kind)
  | missingTag
  | unknownTag
  | repeatedTag
  | missingField (name : String)
  | repeatedField (name : String)
  /-- an array has more items than its record has fields -/
  | surplusItems
  | literal (fault : LiteralFault)
  deriving DecidableEq, Repr

/-- The wording of the faults that have one. -/
def DecodeFault.message? : DecodeFault → Option String
  | .literal fault => fault.message?
  | _ => none

/-- A reader of one document. -/
abbrev Decoder (α : Type) : Type := Json.Value → Except DecodeFault α

/-! ## Scalars -/

/-- The sign of an operator: a string, or the only key of an object with nothing in it. -/
def symbol? : Json.Value → Option String
  | .string text => text
  | .object [(key, .null)] => key
  | .object [(key, .object [])] => key
  | _ => none

/-- A datum that is no record and no list. -/
def decodeScalar (kind : Kind) (v : Json.Value) : Except DecodeFault Datum :=
  match kind, v with
  | .text, .string (some s) => .ok (.text s)
  | .number, .number (.natural n) => .ok (.number n)
  | .flag, .bool b => .ok (.flag b)
  | .literal, v => (decodeLiteral v).map Datum.literal |>.mapError DecodeFault.literal
  | .unaryOp, v =>
      match (symbol? v).bind UnaryOp.ofSymbol? with
      | some op => .ok (.unaryOp op)
      | none => .error (.wrongKind kind)
  | .binaryOp, v =>
      match (symbol? v).bind BinaryOp.ofSymbol? with
      | some op => .ok (.binaryOp op)
      | none => .error (.wrongKind kind)
  | _, _ => .error (.wrongKind kind)

/-! ## Tags -/

/-- The shape that a tag names; the number of the shape is understood when `numbered`. -/
def Family.ofTag (family : Family) (numbered : Bool) : Decoder Shape
  | .string (some tag) =>
      match family.ofTag? tag with
      | some shape => .ok shape
      | none => .error .unknownTag
  | .number (.natural n) =>
      match family.shapes[n.toNat]? with
      | some shape => if numbered then .ok shape else .error .unknownTag
      | none => .error .unknownTag
  | _ => .error .unknownTag

/-- The shape that the tag among the fields names. -/
def Family.findTag (family : Family) (numbered : Bool) :
    Option Shape → List (Json.Text × Json.Value) → Except DecodeFault Shape
  | some shape, [] => .ok shape
  | none, [] => .error .missingTag
  | found, (key, v) :: rest =>
      if key = some tagKey then
        match found with
        | some _ => .error .repeatedTag
        | none => do
            let shape ← family.ofTag numbered v
            family.findTag numbered (some shape) rest
      else family.findTag numbered found rest

/-! ## Records -/

/-- A value that is passed over: JSON at the least. -/
def skip (v : Json.Value) : Except DecodeFault Unit :=
  if v.wellFormed then .ok () else .error .malformed

/-- The known fields of an object, with what they hold, in the order of the text. -/
def collect (decode : Kind → Decoder Datum) (specs : List FieldSpec) :
    List (String × Datum) → List (Json.Text × Json.Value) →
      Except DecodeFault (List (String × Datum))
  | found, [] => .ok found.reverse
  | _, (none, _) :: _ => .error .malformed
  | found, (some key, v) :: rest =>
      match specs.find? fun spec => spec.name = key with
      | none => do
          skip v
          collect decode specs found rest
      | some spec =>
          if found.any fun entry => entry.1 = key then .error (.repeatedField key)
          else do
            let d ← decode spec.kind v
            collect decode specs ((key, d) :: found) rest

/-- The fields of a record in order, from those that were given. -/
def arrange (specs : List FieldSpec) (found : List (String × Datum)) :
    Except DecodeFault (List Datum) :=
  specs.mapM fun spec =>
    match (found.find? fun entry => entry.1 = spec.name).map Prod.snd <|> spec.default with
    | some d => .ok d
    | none => .error (.missingField spec.name)

/-- The fields of a record from an array of them. -/
def decodeItems (decode : Kind → Decoder Datum) :
    List FieldSpec → List Json.Value → Except DecodeFault (List Datum)
  | [], [] => .ok []
  | [], _ :: _ => .error .surplusItems
  | spec :: specs, [] =>
      match spec.default with
      | some d => do
          let ds ← decodeItems decode specs []
          .ok (d :: ds)
      | none => .error (.missingField spec.name)
  | spec :: specs, v :: vs => do
      let d ← decode spec.kind v
      let ds ← decodeItems decode specs vs
      .ok (d :: ds)

/-- A record of a family; `decode` reads its fields. -/
def decodeRecord (decode : Kind → Decoder Datum) (numbered : Bool) (family : Family) :
    Decoder Datum
  | .object fields => do
      let shape ← match family with
        | .only shape => .ok shape
        | _ => family.findTag numbered none fields
      let specs := shape.fields
      let found ← collect decode specs [] fields
      let ds ← arrange specs found
      .ok (.record shape ds)
  | .array items =>
      match family, items with
      | .only shape, items => do
          let ds ← decodeItems decode shape.fields items
          .ok (.record shape ds)
      | _, [] => .error .missingTag
      | _, tag :: items => do
          let shape ← family.ofTag numbered tag
          let ds ← decodeItems decode shape.fields items
          .ok (.record shape ds)
  | _ => .error (.wrongKind (.record family))

/-- A record of a family whose fields nest within `levels`; `checked` says that it lies in a tagged
record that was checked as a whole, and `decode` reads its fields. -/
def decodeFamily (decode : Bool → Kind → Decoder Datum) (levels : Nat) (checked : Bool)
    (family : Family) : Decoder Datum := fun v =>
  if family.tagged && !checked && !v.strictWithin (levels + 1) then .error .unfit
  else decodeRecord (decode (checked || family.tagged)) checked family v

/-- A datum of a kind, in at most `levels` nested arrays and objects. -/
def decodeKind : Nat → Bool → Kind → Decoder Datum
  | _, _, .optional _, .null => .ok .absent
  | 0, _, .record _, _ => .error .tooDeep
  | 0, _, .optional _, _ => .error .tooDeep
  | 0, _, .list _, _ => .error .tooDeep
  | levels + 1, checked, .record family, v =>
      decodeFamily (decodeKind levels) levels checked family v
  | levels + 1, checked, .optional family, v =>
      decodeFamily (decodeKind levels) levels checked family v
  | levels + 1, checked, .list family, .array items => do
      let ds ← items.mapM (decodeKind levels checked (.record family))
      .ok (.list ds)
  | _, _, kind, v => decodeScalar kind v

/-- The datum of a document. -/
def decodeValue (kind : Kind) (v : Json.Value) : Except DecodeFault Datum :=
  decodeKind depthLimit false kind v

/-- The datum of a text that holds one document and nothing else. -/
def decodeText (kind : Kind) (text : String) : Except DecodeFault Datum := do
  let reading := Json.read text
  let d ← decodeValue kind reading.value
  if reading.trailing then .error .trailing else .ok d

end ByteJump.Syntax
