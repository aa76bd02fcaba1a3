import Mathlib.Logic.Relation
import ByteJump.Proofs.Json.Trailing
import ByteJump.Proofs.Syntax.Records

set_option autoImplicit false

/-!
# Flawed documents

A document of a tree has places: the document itself, and in a place that holds a list or a record
the places of its items and fields.  What stands in a place may be flawed in itself: a field or the
tag is repeated or missing, the tag or an operator is unknown, nothing stands where something has
to, an array has too few or too many items.  A document with a flaw in any of its places is not
decoded.

The statement is about every place of a document, so it is proved for places: `Place.Decodes` says
that what stands in a place is decoded, and if it is, then so is what stands in each place inside.
In a single place a flaw contradicts decoding, by the exact conditions for records.  Both together
say that a document with a flaw anywhere is not decoded.  The last section is about a document
with something behind it, which is no document.
-/

namespace ByteJump.Syntax

open Json

/-! ## Places -/

/-- A place in a document: what is to stand there, and what does. -/
structure Place where
  /-- the place lies in a tagged record, where numbers count as tags too -/
  checked : Bool
  kind : Kind
  value : Value

/-- A record of the family is to stand in place of the kind. -/
def Kind.IsRecord (kind : Kind) (family : Family) : Prop :=
  kind = .record family ∨ kind = .optional family

/-- The object is one of the shape: the only one of its family, or one that a tag of it names. -/
inductive Family.Shows (family : Family) (numbered : Bool) (fields : List (Text × Value))
    (shape : Shape) : Prop
  | only (honly : family = .only shape) : Shows family numbered fields shape
  | tagged {tag : Value} (htagged : family.tagged = true) (htag : (some tagKey, tag) ∈ fields)
      (hnames : family.Names numbered shape tag) : Shows family numbered fields shape

/-- The second place is one of those right inside the first. -/
inductive Place.Part : Place → Place → Prop
  | item {checked : Bool} {family : Family} {vs : List Value} {v : Value} (hv : v ∈ vs) :
      Part ⟨checked, .list family, .array vs⟩ ⟨checked, .record family, v⟩
  | field {checked : Bool} {kind : Kind} {family : Family} {fields : List (Text × Value)}
      {shape : Shape} {spec : FieldSpec} {v : Value} (hkind : kind.IsRecord family)
      (hshape : family.Shows checked fields shape) (hspec : spec ∈ shape.fields)
      (hv : (some spec.name, v) ∈ fields) :
      Part ⟨checked, kind, .object fields⟩ ⟨checked || family.tagged, spec.kind, v⟩
  | element {checked : Bool} {kind : Kind} {family : Family} {items rest : List Value}
      {shape : Shape} {spec : FieldSpec} {v : Value} (hkind : kind.IsRecord family)
      (hheads : family.Heads checked shape items rest) (hv : (spec, v) ∈ shape.fields.zip rest) :
      Part ⟨checked, kind, .array items⟩ ⟨checked || family.tagged, spec.kind, v⟩

/-- The second place is the first or lies somewhere inside it. -/
def Place.Inside : Place → Place → Prop := Relation.ReflTransGen Place.Part

/-! ## Flaws -/

/-- A sign as the operators are written: as a string, or as the only key of an object with nothing
in it. -/
inductive Sign (sign : String) : Value → Prop
  | string : Sign sign (.ofString sign)
  | null : Sign sign (.object [(some sign, .null)])
  | empty : Sign sign (.object [(some sign, .object [])])

/-- What may stand in place of a kind, at first sight: nothing only where a record is optional, and
for an operator only its sign. -/
inductive Kind.Admits : Kind → Value → Prop
  | text (s : String) : Admits .text (.ofString s)
  | number (n : UInt64) : Admits .number (.ofUInt64 n)
  | flag (b : Bool) : Admits .flag (.bool b)
  | literal (n : UInt64) : Admits .literal (.ofUInt64 n)
  | decimal (s : String) : Admits .literal (.ofString s)
  | unaryOp {v : Value} (op : UnaryOp) (h : Sign op.symbol v) : Admits .unaryOp v
  | binaryOp {v : Value} (op : BinaryOp) (h : Sign op.symbol v) : Admits .binaryOp v
  | object {kind : Kind} {family : Family} (hkind : kind.IsRecord family)
      (fields : List (Text × Value)) : Admits kind (.object fields)
  | array {kind : Kind} {family : Family} (hkind : kind.IsRecord family) (items : List Value) :
      Admits kind (.array items)
  | absent (family : Family) : Admits (.optional family) .null
  | list (family : Family) (items : List Value) : Admits (.list family) (.array items)

/-- What stands in the place is flawed. -/
inductive Place.Flaw : Place → Prop
  /-- nothing stands where something has to, an operator is unknown, or something of another sort
  stands there -/
  | unfit {checked : Bool} {kind : Kind} {v : Value} (h : ¬kind.Admits v) : Flaw ⟨checked, kind, v⟩
  | missingTag {checked : Bool} {kind : Kind} {family : Family} {fields : List (Text × Value)}
      (hkind : kind.IsRecord family) (htagged : family.tagged = true)
      (h : some tagKey ∉ keys fields) : Flaw ⟨checked, kind, .object fields⟩
  | repeatedTag {checked : Bool} {kind : Kind} {family : Family} {fields : List (Text × Value)}
      (hkind : kind.IsRecord family) (htagged : family.tagged = true)
      (h : 1 < (keys fields).count (some tagKey)) : Flaw ⟨checked, kind, .object fields⟩
  | unknownTag {checked : Bool} {kind : Kind} {family : Family} {fields : List (Text × Value)}
      {tag : Value} (hkind : kind.IsRecord family) (htagged : family.tagged = true)
      (htag : (some tagKey, tag) ∈ fields) (h : ∀ shape, ¬family.Names checked shape tag) :
      Flaw ⟨checked, kind, .object fields⟩
  | missingField {checked : Bool} {kind : Kind} {family : Family} {fields : List (Text × Value)}
      {shape : Shape} {spec : FieldSpec} (hkind : kind.IsRecord family)
      (hshape : family.Shows checked fields shape) (hspec : spec ∈ shape.fields)
      (hdefault : spec.default = none) (h : some spec.name ∉ keys fields) :
      Flaw ⟨checked, kind, .object fields⟩
  | repeatedField {checked : Bool} {kind : Kind} {family : Family} {fields : List (Text × Value)}
      {shape : Shape} {spec : FieldSpec} (hkind : kind.IsRecord family)
      (hshape : family.Shows checked fields shape) (hspec : spec ∈ shape.fields)
      (h : 1 < (keys fields).count (some spec.name)) : Flaw ⟨checked, kind, .object fields⟩
  /-- an array without even a tag -/
  | noHead {checked : Bool} {kind : Kind} {family : Family} (hkind : kind.IsRecord family)
      (htagged : family.tagged = true) : Flaw ⟨checked, kind, .array []⟩
  | unknownHead {checked : Bool} {kind : Kind} {family : Family} {tag : Value} {items : List Value}
      (hkind : kind.IsRecord family) (htagged : family.tagged = true)
      (h : ∀ shape, ¬family.Names checked shape tag) : Flaw ⟨checked, kind, .array (tag :: items)⟩
  /-- an array that ends before a field that has to be there -/
  | missingItem {checked : Bool} {kind : Kind} {family : Family} {items rest : List Value}
      {shape : Shape} {spec : FieldSpec} (hkind : kind.IsRecord family)
      (hheads : family.Heads checked shape items rest)
      (hspec : spec ∈ shape.fields.drop rest.length) (hdefault : spec.default = none) :
      Flaw ⟨checked, kind, .array items⟩
  | surplusItem {checked : Bool} {kind : Kind} {family : Family} {items rest : List Value}
      {shape : Shape} (hkind : kind.IsRecord family)
      (hheads : family.Heads checked shape items rest) (h : shape.fields.length < rest.length) :
      Flaw ⟨checked, kind, .array items⟩

/-! ## One tag, one shape

Tags of a family are all different, so a record has one shape at most. -/

/-- A tag names one shape. -/
theorem Family.Names.unique {family : Family} {numbered : Bool} {shape other : Shape} {tag : Value}
    (htagged : family.tagged = true) (h : family.Names numbered shape tag)
    (h' : family.Names numbered other tag) : other = shape :=
  Except.ok.inj (((ofTag_eq_ok htagged).mpr h').symm.trans ((ofTag_eq_ok htagged).mpr h))

theorem Family.Tagged.unique {family : Family} {numbered : Bool} {fields : List (Text × Value)}
    {shape other : Shape} (h : family.Tagged numbered fields shape)
    (h' : family.Shows numbered fields other) : other = shape := by
  cases h' with
  | only honly =>
      have hmem := h.mem
      rw [honly] at hmem
      exact (List.mem_singleton.mp hmem).symm
  | tagged htagged htag hnames => exact (h.names htagged _ htag).unique htagged hnames

/-- The first item of an array names one shape. -/
theorem Family.Heads.unique {family : Family} {numbered : Bool} {items rest rest' : List Value}
    {shape other : Shape} (h : family.Heads numbered shape items rest)
    (h' : family.Heads numbered other items rest') : other = shape ∧ rest' = rest := by
  cases h with
  | only honly =>
      subst honly
      cases h' with
      | only honly => exact ⟨(Family.only.inj honly).symm, rfl⟩
      | tagged htagged => cases htagged
  | tagged htagged hnames =>
      cases h' with
      | only honly =>
          subst honly
          cases htagged
      | tagged _ hnames' => exact ⟨hnames.unique htagged hnames', rfl⟩

/-! ## Places that are decoded -/

/-- What stands in the place is decoded, in some depth. -/
def Place.Decodes (p : Place) : Prop :=
  ∃ levels d, decodeKind levels p.checked p.kind p.value = .ok d

/-- A record is decoded in one of the forms that a record may have. -/
theorem Place.Decodes.record {checked : Bool} {kind : Kind} {family : Family} {v : Value}
    (hkind : kind.IsRecord family) (hv : v ≠ .null) (h : Place.Decodes ⟨checked, kind, v⟩) :
    ∃ levels d, decodeRecord (decodeKind levels (checked || family.tagged)) checked family v =
      .ok d := by
  obtain ⟨levels, d, h⟩ := h
  cases levels with
  | zero =>
      rcases hkind with rfl | rfl
      · cases h
      · cases v <;> first | exact absurd rfl hv | cases h
  | succ levels =>
      dsimp only at h
      rw [decodeKind_record hkind hv, decodeFamily] at h
      split at h
      · cases h
      · exact ⟨levels, d, h⟩

/-- The tag names a shape, and all its fields are decoded. -/
theorem Place.Decodes.object {checked : Bool} {kind : Kind} {family : Family}
    {fields : List (Text × Value)} (h : Place.Decodes ⟨checked, kind, .object fields⟩)
    (hkind : kind.IsRecord family) : ∃ levels shape ds, family.Tagged checked fields shape ∧
      FieldsFit (decodeKind levels (checked || family.tagged)) shape.fields fields ∧
      List.Forall₂ (FieldHolds (decodeKind levels (checked || family.tagged)) fields)
        shape.fields ds := by
  obtain ⟨levels, d, hd⟩ := Decodes.record hkind (v := .object fields) nofun h
  obtain ⟨shape, ds, htag, hfit, hholds, -⟩ := decodeRecord_object.mp hd
  exact ⟨levels, shape, ds, htag, hfit, hholds⟩

/-- The items are those of a shape, and all are decoded. -/
theorem Place.Decodes.array {checked : Bool} {kind : Kind} {family : Family} {items : List Value}
    (h : Place.Decodes ⟨checked, kind, .array items⟩) (hkind : kind.IsRecord family) :
    ∃ levels shape rest ds, family.Heads checked shape items rest ∧
      decodeItems (decodeKind levels (checked || family.tagged)) shape.fields rest = .ok ds := by
  obtain ⟨levels, d, hd⟩ := Decodes.record hkind (v := .array items) nofun h
  obtain ⟨shape, rest, ds, hheads, hitems, -⟩ := decodeRecord_array.mp hd
  exact ⟨levels, shape, rest, ds, hheads, hitems⟩

/-- Where a place is decoded, so are those right inside it. -/
theorem Place.Decodes.part {p q : Place} (h : p.Decodes) (hpart : p.Part q) : q.Decodes := by
  cases hpart with
  | item hv =>
      obtain ⟨levels, d, h⟩ := h
      cases levels with
      | zero => cases h
      | succ levels =>
          obtain ⟨ds, hds, -⟩ := Except.bind_eq_ok.mp h
          obtain ⟨d, hd⟩ := exists_of_forall₂ (mapM_eq_ok.mp hds) _ hv
          exact ⟨levels, d, hd⟩
  | field hkind hshape hspec hv =>
      obtain ⟨levels, shape, ds, htag, hfit, -⟩ := h.object hkind
      obtain rfl := htag.unique hshape
      obtain ⟨d, hd⟩ := hfit.decoded _ hspec _ hv
      exact ⟨levels, d, hd⟩
  | element hkind hheads hv =>
      obtain ⟨levels, shape, rest, ds, hheads', hitems⟩ := h.array hkind
      obtain ⟨rfl, rfl⟩ := hheads'.unique hheads
      obtain ⟨d, hd⟩ := (decodeItems_eq_ok hitems).2.1 _ hv
      exact ⟨levels, d, hd⟩

/-- By induction on how the place lies inside. -/
theorem Place.Decodes.inside {p q : Place} (h : p.Decodes) (hinside : p.Inside q) : q.Decodes := by
  induction hinside with
  | refl => exact h
  | tail _ hpart ih => exact ih.part hpart

theorem sign_of_symbol? {v : Value} {sign : String} (h : symbol? v = some sign) : Sign sign v := by
  unfold symbol? at h
  split at h
  · subst h
    exact .string
  · subst h
    exact .null
  · subst h
    exact .empty
  · cases h

/-- An operator that was looked up by a sign is the one of that sign. -/
theorem sign_of_find? {α : Type} {all : List α} {symbol : α → String} {v : Value} {op : α}
    (h : ((symbol? v).bind fun sign => all.find? fun op => symbol op = sign) = some op) :
    Sign (symbol op) v := by
  obtain ⟨sign, hsign, hfind⟩ := Option.bind_eq_some_iff.mp h
  have hsymbol : symbol op = sign := of_decide_eq_true (List.find?_some hfind :)
  exact sign_of_symbol? (hsign.trans (congrArg some hsymbol.symm))

/-- A literal is a string or a number of the right kind. -/
theorem literal_of_decode {v : Value} {w : Word128} (h : decodeLiteral v = .ok w) :
    Kind.Admits .literal v := by
  cases v with
  | number number =>
      cases number with
      | natural n => exact .literal n
      | negative | other => cases h
  | string text =>
      cases text with
      | some s => exact .decimal s
      | none => cases h
  | null | bool | array | object | malformed => cases h

/-- A scalar is of the form its kind admits. -/
theorem admits_of_scalar {kind : Kind} {v : Value} {d : Datum} (h : decodeScalar kind v = .ok d) :
    kind.Admits v := by
  unfold decodeScalar at h
  split at h
  · exact .text _
  · exact .number _
  · exact .flag _
  · cases hliteral : decodeLiteral v with
    | ok w => exact literal_of_decode hliteral
    | error fault =>
        rw [hliteral] at h
        cases h
  · split at h
    · rename_i op hop
      exact .unaryOp op (sign_of_find? hop)
    · cases h
  · split at h
    · rename_i op hop
      exact .binaryOp op (sign_of_find? hop)
    · cases h
  · cases h

/-- What is decoded in place of a kind may stand there. -/
theorem Place.Decodes.admits {checked : Bool} {kind : Kind} {v : Value}
    (h : Place.Decodes ⟨checked, kind, v⟩) : kind.Admits v := by
  have hrecord {family : Family} (hkind : kind.IsRecord family) (hv : v ≠ .null) :
      kind.Admits v := by
    obtain ⟨levels, d, hd⟩ := h.record hkind hv
    obtain ⟨fields, rfl⟩ | ⟨items, rfl⟩ := decodeRecord_eq_ok hd
    · exact .object hkind fields
    · exact .array hkind items
  have hscalar (hkind : ∀ family, kind ≠ .record family ∧ kind ≠ .list family ∧
      kind ≠ .optional family) : kind.Admits v := by
    obtain ⟨levels, d, hd⟩ := h
    exact admits_of_scalar ((decodeKind_scalar levels checked v hkind).symm.trans hd)
  cases kind with
  | record family =>
      refine hrecord (Or.inl rfl) ?_
      rintro rfl
      obtain ⟨levels, d, hd⟩ := h
      cases levels with
      | zero => cases hd
      | succ levels =>
          dsimp only at hd
          rw [decodeKind, decodeFamily] at hd
          split at hd <;> cases hd
  | optional family =>
      by_cases hv : v = .null
      · subst hv
        exact .absent family
      · exact hrecord (Or.inr rfl) hv
  | list family =>
      obtain ⟨levels, d, hd⟩ := h
      cases levels with
      | zero => cases hd
      | succ levels =>
          cases v with
          | array items => exact .list family items
          | null | bool | number | string | object | malformed => cases hd
  | text | number | flag | literal | unaryOp | binaryOp =>
      exact hscalar (by simp)

/-- A place that is decoded has no flaw. -/
theorem Place.Decodes.sound {p : Place} (h : p.Decodes) : ¬p.Flaw := by
  intro hflaw
  cases hflaw with
  | unfit hunfit => exact hunfit h.admits
  | missingTag hkind htagged hmissing =>
      obtain ⟨levels, shape, ds, htag, -, -⟩ := h.object hkind
      have hcount := htag.once htagged
      rw [List.count_eq_zero.mpr hmissing] at hcount
      cases hcount
  | repeatedTag hkind htagged hrepeated =>
      obtain ⟨levels, shape, ds, htag, -, -⟩ := h.object hkind
      exact absurd (htag.once htagged) (Nat.ne_of_gt hrepeated)
  | unknownTag hkind htagged hmem hunknown =>
      obtain ⟨levels, shape, ds, htag, -, -⟩ := h.object hkind
      exact hunknown shape (htag.names htagged _ hmem)
  | missingField hkind hshape hspec hdefault hmissing =>
      obtain ⟨levels, shape, ds, htag, -, hholds⟩ := h.object hkind
      obtain rfl := htag.unique hshape
      obtain ⟨d, hd⟩ := exists_of_forall₂ hholds _ hspec
      cases hd with
      | given hv => exact hmissing (List.mem_map.mpr ⟨_, hv, rfl⟩)
      | omitted _ hsome =>
          rw [hdefault] at hsome
          cases hsome
  | repeatedField hkind hshape hspec hrepeated =>
      obtain ⟨levels, shape, ds, htag, hfit, -⟩ := h.object hkind
      obtain rfl := htag.unique hshape
      exact absurd (hfit.once _ hspec) (Nat.not_le_of_lt hrepeated)
  | noHead hkind htagged =>
      obtain ⟨levels, shape, rest, ds, hheads, -⟩ := h.array hkind
      cases hheads with
      | only honly =>
          subst honly
          cases htagged
  | unknownHead hkind htagged hunknown =>
      obtain ⟨levels, shape, rest, ds, hheads, -⟩ := h.array hkind
      cases hheads with
      | only honly =>
          subst honly
          cases htagged
      | tagged _ hnames => exact hunknown shape hnames
  | missingItem hkind hheads hspec hdefault =>
      obtain ⟨levels, shape, rest, ds, hheads', hitems⟩ := h.array hkind
      obtain ⟨rfl, rfl⟩ := hheads'.unique hheads
      have hsome := (decodeItems_eq_ok hitems).2.2 _ hspec
      rw [hdefault] at hsome
      cases hsome
  | surplusItem hkind hheads hsurplus =>
      obtain ⟨levels, shape, rest, ds, hheads', hitems⟩ := h.array hkind
      obtain ⟨rfl, rfl⟩ := hheads'.unique hheads
      exact absurd (decodeItems_eq_ok hitems).1 (Nat.not_le_of_lt hsurplus)

/-- A text whose document has a flaw in some place is not decoded. -/
theorem decodeText_flaw {kind : Kind} {text : String} {q : Place}
    (hinside : Place.Inside ⟨false, kind, (read text).value⟩ q) (hflaw : q.Flaw) :
    ∃ fault, decodeText kind text = .error fault := by
  cases h : decodeText kind text with
  | error fault => exact ⟨fault, rfl⟩
  | ok d =>
      obtain ⟨d', hd', -⟩ := Except.bind_eq_ok.mp h
      have hdecodes : Place.Decodes ⟨false, kind, (read text).value⟩ := ⟨depthLimit, d', hd'⟩
      exact absurd hflaw (hdecodes.inside hinside).sound

/-! ## More behind a document -/

/-- Behind a document only white space may stand. -/
theorem decodeText_append {family : Family} {kind : Kind}
    (hkind : kind = .record family ∨ kind = .list family) {front back : String} {v : Value}
    (hread : read front = ⟨v, false⟩) (hv : v.wellFormed = true) (hback : ¬Blank back.toList) :
    ∃ fault, decodeText kind (front ++ back) = .error fault := by
  cases h : decodeText kind (front ++ back) with
  | error fault => exact ⟨fault, rfl⟩
  | ok d =>
      exfalso
      obtain ⟨d', hd', htrailing⟩ := Except.bind_eq_ok.mp h
      have hadmits : kind.Admits (read (front ++ back)).value :=
        Place.Decodes.admits ⟨depthLimit, d', hd'⟩
      rcases read_append hread hv hback with hmore | ⟨number, hnumber⟩ | hmalformed
      · rw [hmore] at htrailing
        cases htrailing
      · rw [hnumber] at hadmits
        rcases hkind with rfl | rfl <;> cases hadmits
      · rw [hmalformed] at hadmits
        rcases hkind with rfl | rfl <;> cases hadmits

end ByteJump.Syntax
