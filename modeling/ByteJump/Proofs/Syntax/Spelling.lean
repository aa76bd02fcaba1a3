import ByteJump.Proofs.Syntax.Records

set_option autoImplicit false

/-!
# The documents of a datum

A datum has many documents.  A record may be an object or an array.  In an object the tag and the
fields stand in any order, fields that hold their default may be left out, and fields that the
record does not know may stand among them; in an array the fields stand in the order of the schema
behind the tag, and fields at the end that hold their default may be left out.  The choices are free
for every record in a document, and each document is decoded to the datum.

`Datum.Spelled kind d v` says that the document `v` is one of those of the datum `d`.  It is a
grammar: one rule for each form a kind of datum may take, with every freedom a premise of its
rule, such as the permutation of the fields of an object.  `decodeKind_spelled` shows that the
decoder accepts every document of the grammar and gives the datum, by induction on the grammar.
The document that the encoder writes is among them.
-/

namespace ByteJump.Syntax

open Json

/-! ## Spellings

What stands in a field that is not known is passed over; here it is a scalar. -/

/-- What may stand in a field that is passed over. -/
inductive Filler : Value → Prop
  | null : Filler .null
  | bool (b : Bool) : Filler (.bool b)
  | natural (n : UInt64) : Filler (.number (.natural n))
  | negative (m : Nat) : Filler (.number (.negative m))
  | string (s : String) : Filler (.ofString s)

/-- A field whose name the records of a shape do not know. -/
structure Shape.Ignores (shape : Shape) (field : Text × Value) : Prop where
  key : field.1.isSome = true
  unknown : ∀ spec ∈ shape.fields, field.1 ≠ some spec.name
  untagged : shape.tag.isSome = true → field.1 ≠ some tagKey
  filler : Filler field.2

/-- The tag of a shape as the first item of an array. -/
def Family.tagItem (family : Family) (shape : Shape) : List Value :=
  if family.tagged then (shape.tag.map Value.ofString).toList else []

mutual

/-- The documents of a datum in place of a kind. -/
inductive Datum.Spelled : Kind → Datum → Value → Prop
  | text (s : String) : Spelled .text (.text s) (.ofString s)
  | number (n : UInt64) : Spelled .number (.number n) (.ofUInt64 n)
  | flag (b : Bool) : Spelled .flag (.flag b) (.bool b)
  | literal (w : Word128) : Spelled .literal (.literal w) (encodeLiteral w)
  | unaryOp (op : UnaryOp) : Spelled .unaryOp (.unaryOp op) (.ofString op.symbol)
  | binaryOp (op : BinaryOp) : Spelled .binaryOp (.binaryOp op) (.ofString op.symbol)
  | absent (family : Family) : Spelled (.optional family) .absent .null
  | list {family : Family} {ds : List Datum} {vs : List Value}
      (h : Datum.ListSpelled family ds vs) : Spelled (.list family) (.list ds) (.array vs)
  | object {kind : Kind} {family : Family} {shape : Shape} {ds : List Datum}
      {given extra fields : List (Text × Value)}
      (hkind : kind = .record family ∨ kind = .optional family) (hshape : shape ∈ family.shapes)
      (hgiven : Datum.FieldsSpelled shape.fields ds given)
      (hextra : ∀ field ∈ extra, shape.Ignores field)
      (hfields : fields.Perm (shape.tagField ++ given ++ extra)) :
      Spelled kind (.record shape ds) (.object fields)
  | array {kind : Kind} {family : Family} {shape : Shape} {ds : List Datum} {items : List Value}
      (hkind : kind = .record family ∨ kind = .optional family) (hshape : shape ∈ family.shapes)
      (hitems : Datum.ItemsSpelled shape.fields ds items) :
      Spelled kind (.record shape ds) (.array (family.tagItem shape ++ items))

/-- The documents of several records. -/
inductive Datum.ListSpelled : Family → List Datum → List Value → Prop
  | nil (family : Family) : ListSpelled family [] []
  | cons {family : Family} {d : Datum} {v : Value} {ds : List Datum} {vs : List Value}
      (hd : Datum.Spelled (.record family) d v) (hds : ListSpelled family ds vs) :
      ListSpelled family (d :: ds) (v :: vs)

/-- The fields of a record in the order of the schema; any that hold their default may be left
out. -/
inductive Datum.FieldsSpelled : List FieldSpec → List Datum → List (Text × Value) → Prop
  | nil : FieldsSpelled [] [] []
  | given {spec : FieldSpec} {d : Datum} {v : Value} {specs : List FieldSpec} {ds : List Datum}
      {fields : List (Text × Value)} (hd : Datum.Spelled spec.kind d v)
      (hds : FieldsSpelled specs ds fields) :
      FieldsSpelled (spec :: specs) (d :: ds) ((some spec.name, v) :: fields)
  | omitted {spec : FieldSpec} {d : Datum} {specs : List FieldSpec} {ds : List Datum}
      {fields : List (Text × Value)} (hdefault : spec.default = some d)
      (hds : FieldsSpelled specs ds fields) : FieldsSpelled (spec :: specs) (d :: ds) fields

/-- The fields of a record as the items of an array; those at the end that hold their default may be
left out. -/
inductive Datum.ItemsSpelled : List FieldSpec → List Datum → List Value → Prop
  | omitted {specs : List FieldSpec} {ds : List Datum}
      (hdefaults : specs.map FieldSpec.default = ds.map some) : ItemsSpelled specs ds []
  | given {spec : FieldSpec} {d : Datum} {v : Value} {specs : List FieldSpec} {ds : List Datum}
      {items : List Value} (hd : Datum.Spelled spec.kind d v) (hds : ItemsSpelled specs ds items) :
      ItemsSpelled (spec :: specs) (d :: ds) (v :: items)

end

/-! ## The document that is written -/

mutual

/-- The document that is written for a datum is one of its documents. -/
theorem Datum.spelled_encode : ∀ (d : Datum) (kind : Kind), d.Of kind → d.Spelled kind d.encode
  | .text s, .text, _ => .text s
  | .number n, .number, _ => .number n
  | .flag b, .flag, _ => .flag b
  | .literal w, .literal, _ => .literal w
  | .unaryOp op, .unaryOp, _ => .unaryOp op
  | .binaryOp op, .binaryOp, _ => .binaryOp op
  | .absent, .optional family, _ => .absent family
  | .list ds, .list family, h => .list (Datum.listSpelled_encode ds family h)
  | .record shape ds, .record _, h =>
      .object (Or.inl rfl) h.1 (Datum.fieldsSpelled_encode ds shape.fields h.2)
        (List.forall_mem_nil _) (.of_eq (List.append_nil _).symm)
  | .record shape ds, .optional _, h =>
      .object (Or.inr rfl) h.1 (Datum.fieldsSpelled_encode ds shape.fields h.2)
        (List.forall_mem_nil _) (.of_eq (List.append_nil _).symm)

/-- Each item is written in its own form. -/
theorem Datum.listSpelled_encode : ∀ (ds : List Datum) (family : Family),
    Datum.AllOf (.record family) ds → Datum.ListSpelled family ds (Datum.encodeList ds)
  | [], family, _ => .nil family
  | d :: ds, family, h =>
      .cons (Datum.spelled_encode d (.record family) h.1) (Datum.listSpelled_encode ds family h.2)

/-- No field is left out, and all stand in order. -/
theorem Datum.fieldsSpelled_encode : ∀ (ds : List Datum) (specs : List FieldSpec),
    Datum.FieldsOf specs ds → Datum.FieldsSpelled specs ds (Datum.encodeFields specs ds)
  | [], [], _ => .nil
  | d :: ds, spec :: specs, h =>
      .given (Datum.spelled_encode d spec.kind h.1) (Datum.fieldsSpelled_encode ds specs h.2)

end

/-! ## Objects

The fields of an object are a permutation of the tag, of the fields that are given, and of others
that are ignored.  So each known field occurs as often as it is given, once or not at all. -/

theorem Filler.wellFormed {v : Value} (h : Filler v) : v.wellFormed = true := by
  cases h <;> rfl

/-- The fields that are given have the names of fields of the record, each at most once. -/
theorem Datum.FieldsSpelled.sublist : ∀ {specs : List FieldSpec} {ds : List Datum}
    {given : List (Text × Value)}, Datum.FieldsSpelled specs ds given →
    (keys given).Sublist ((specs.map FieldSpec.name).map some)
  | _, _, _, .nil => .slnil
  | _, _, _, .given _ hds => hds.sublist.cons_cons _
  | _, _, _, .omitted _ hds => hds.sublist.cons _

section Objects

variable {family : Family} {shape : Shape} {ds : List Datum}
  {given extra fields : List (Text × Value)}

theorem keys_tagField (shape : Shape) :
    keys shape.tagField = if shape.tag.isSome then [some tagKey] else [] := by
  unfold Shape.tagField
  cases shape.tag <;> rfl

/-- Among the fields of an object the known ones are those that were given for the data. -/
theorem mem_fields_iff (hextra : ∀ field ∈ extra, shape.Ignores field)
    (hfields : fields.Perm (shape.tagField ++ given ++ extra)) {spec : FieldSpec}
    (hspec : spec ∈ shape.fields) (v : Value) :
    (some spec.name, v) ∈ fields ↔ (some spec.name, v) ∈ given := by
  rw [hfields.mem_iff, List.mem_append, List.mem_append]
  have htag : (some spec.name, v) ∉ shape.tagField := by
    intro hmem
    have hkey : some spec.name ∈ keys shape.tagField := List.mem_map.mpr ⟨_, hmem, rfl⟩
    rw [keys_tagField] at hkey
    split at hkey
    · have hname : spec.name = tagKey := Option.some.inj (List.mem_singleton.mp hkey)
      exact (List.nodup_cons.mp shape.names_fields).1 (List.mem_map.mpr ⟨spec, hspec, hname⟩)
    · cases hkey
  have hnone : (some spec.name, v) ∉ extra := fun hmem => (hextra _ hmem).unknown spec hspec rfl
  exact ⟨fun h => (h.resolve_right hnone).resolve_left htag, fun h => Or.inl (Or.inr h)⟩

/-- A key of the object is the tag, a field that is given, or one that is ignored. -/
theorem mem_keys_iff (hextra : ∀ field ∈ extra, shape.Ignores field)
    (hfields : fields.Perm (shape.tagField ++ given ++ extra)) {spec : FieldSpec}
    (hspec : spec ∈ shape.fields) :
    some spec.name ∈ keys fields ↔ some spec.name ∈ keys given := by
  unfold keys
  rw [List.mem_map, List.mem_map]
  constructor
  · rintro ⟨⟨_, v⟩, hv, rfl⟩
    exact ⟨_, (mem_fields_iff hextra hfields hspec v).mp hv, rfl⟩
  · rintro ⟨⟨_, v⟩, hv, rfl⟩
    exact ⟨_, (mem_fields_iff hextra hfields hspec v).mpr hv, rfl⟩

/-- A permutation keeps how often a key occurs. -/
theorem count_keys (hfields : fields.Perm (shape.tagField ++ given ++ extra)) (key : Text) :
    (keys fields).count key =
      (keys shape.tagField).count key + (keys given).count key + (keys extra).count key := by
  unfold keys
  rw [(hfields.map Prod.fst).count_eq, List.map_append, List.map_append, List.count_append,
    List.count_append]

/-- A known field is given at most once. -/
theorem count_field (hgiven : Datum.FieldsSpelled shape.fields ds given)
    (hextra : ∀ field ∈ extra, shape.Ignores field)
    (hfields : fields.Perm (shape.tagField ++ given ++ extra)) {spec : FieldSpec}
    (hspec : spec ∈ shape.fields) : (keys fields).count (some spec.name) ≤ 1 := by
  obtain ⟨htag, hnodup⟩ := List.nodup_cons.mp shape.names_fields
  have hname : spec.name ≠ tagKey := fun heq => htag (List.mem_map.mpr ⟨spec, hspec, heq⟩)
  have htagField : (keys shape.tagField).count (some spec.name) = 0 := by
    rw [keys_tagField, List.count_eq_zero]
    split
    · exact fun hmem => hname (Option.some.inj (List.mem_singleton.mp hmem))
    · exact nofun
  have hnone : (keys extra).count (some spec.name) = 0 := by
    rw [List.count_eq_zero]
    intro hmem
    obtain ⟨field, hfield, hkey⟩ := List.mem_map.mp hmem
    exact (hextra field hfield).unknown spec hspec hkey
  have hgivens : (keys given).count (some spec.name) ≤ 1 := by
    refine List.nodup_iff_count_le_one.mp (hgiven.sublist.nodup ?_) _
    exact hnodup.map fun _ _ => Option.some.inj
  rw [count_keys hfields, htagField, hnone]
  omega

/-- The tag of the family stands once among the fields and names the shape. -/
theorem tagged_fields (hshape : shape ∈ family.shapes)
    (hgiven : Datum.FieldsSpelled shape.fields ds given)
    (hextra : ∀ field ∈ extra, shape.Ignores field)
    (hfields : fields.Perm (shape.tagField ++ given ++ extra)) (numbered : Bool) :
    family.Tagged numbered fields shape := by
  have htag : family.tagged = true → ∃ tag, shape.tag = some tag := by
    intro htagged
    obtain ⟨tag, htag, -⟩ := Option.bind_eq_some_iff.mp (Family.ofTag?_tag htagged shape hshape)
    exact ⟨tag, htag⟩
  have hgivens : some tagKey ∉ keys given := by
    intro hmem
    obtain ⟨name, hname, heq⟩ := List.mem_map.mp (hgiven.sublist.subset hmem)
    exact (List.nodup_cons.mp shape.names_fields).1 (Option.some.inj heq ▸ hname)
  have hextras : shape.tag.isSome = true → some tagKey ∉ keys extra := by
    intro hsome hmem
    obtain ⟨field, hfield, hkey⟩ := List.mem_map.mp hmem
    exact (hextra field hfield).untagged hsome hkey
  refine ⟨hshape, fun htagged => ?_, fun htagged v hv => ?_⟩ <;>
    obtain ⟨tag, htag⟩ := htag htagged <;>
    have hsome : shape.tag.isSome = true := by rw [htag]; rfl
  · rw [count_keys hfields, keys_tagField, if_pos hsome, List.count_eq_zero.mpr hgivens,
      List.count_eq_zero.mpr (hextras hsome)]
    rfl
  · rw [hfields.mem_iff, List.mem_append, List.mem_append] at hv
    rcases hv with (hv | hv) | hv
    · rw [Shape.tagField, htag] at hv
      cases List.mem_singleton.mp hv
      exact .name hshape htag
    · exact absurd (List.mem_map.mpr ⟨_, hv, rfl⟩) hgivens
    · exact absurd (List.mem_map.mpr ⟨_, hv, rfl⟩) (hextras hsome)

/-- The fields of an object fit where those that are given hold the data. -/
theorem fieldsFit_of_holds {decode : Kind → Decoder Datum}
    (hgiven : Datum.FieldsSpelled shape.fields ds given)
    (hextra : ∀ field ∈ extra, shape.Ignores field)
    (hfields : fields.Perm (shape.tagField ++ given ++ extra))
    (hholds : List.Forall₂ (FieldHolds decode fields) shape.fields ds) :
    FieldsFit decode shape.fields fields := by
  have honce : ∀ spec ∈ shape.fields, (keys fields).count (some spec.name) ≤ 1 :=
    fun spec hspec => count_field hgiven hextra hfields hspec
  have hknown : ∀ field ∈ given, ∃ spec ∈ shape.fields, field.1 = some spec.name := by
    intro field hfield
    obtain ⟨_, hname, heq⟩ := List.mem_map.mp
      (hgiven.sublist.subset (List.mem_map.mpr ⟨field, hfield, rfl⟩))
    obtain ⟨spec, hspec, rfl⟩ := List.mem_map.mp hname
    exact ⟨spec, hspec, heq.symm⟩
  have htagField : ∀ field ∈ shape.tagField,
      field.1.isSome = true ∧ field.2.wellFormed = true := by
    intro field hfield
    unfold Shape.tagField at hfield
    split at hfield
    · cases List.mem_singleton.mp hfield
      exact ⟨rfl, rfl⟩
    · cases hfield
  refine ⟨fun field hfield => ?_, fun field hfield hne => ?_, fun spec hspec v hv => ?_, honce⟩
  · rw [hfields.mem_iff, List.mem_append, List.mem_append] at hfield
    rcases hfield with (hfield | hfield) | hfield
    · exact (htagField field hfield).1
    · obtain ⟨spec, -, hkey⟩ := hknown field hfield
      rw [hkey]
      rfl
    · exact (hextra field hfield).key
  · rw [hfields.mem_iff, List.mem_append, List.mem_append] at hfield
    rcases hfield with (hfield | hfield) | hfield
    · exact (htagField field hfield).2
    · obtain ⟨spec, hspec, hkey⟩ := hknown field hfield
      exact absurd hkey (hne spec hspec)
    · exact (hextra field hfield).filler.wellFormed
  · obtain ⟨d, hd⟩ := exists_of_forall₂ hholds spec hspec
    cases hd with
    | given hw hd => exact ⟨d, eq_of_count (honce spec hspec) hw hv ▸ hd⟩
    | omitted hnone => exact absurd (List.mem_map.mpr ⟨_, hv, rfl⟩) hnone

end Objects

/-! ## Arrays

Behind the tag the fields stand in the order of the schema, and those missing at the end take
their defaults. -/

/-- Where no items are left, all fields hold their defaults. -/
theorem decodeItems_nil (decode : Kind → Decoder Datum) : ∀ {specs : List FieldSpec}
    {ds : List Datum}, specs.map FieldSpec.default = ds.map some →
    decodeItems decode specs [] = .ok ds
  | [], [], _ => rfl
  | spec :: specs, d :: ds, h => by
      rw [List.map_cons, List.map_cons, List.cons.injEq] at h
      rw [decodeItems, h.1]
      dsimp only
      rw [decodeItems_nil decode h.2]
      rfl

/-- The first item of an array with a tag is the tag. -/
theorem heads_tagItem {family : Family} {shape : Shape} (hshape : shape ∈ family.shapes)
    (numbered : Bool) (items : List Value) :
    family.Heads numbered shape (family.tagItem shape ++ items) items := by
  unfold Family.tagItem
  by_cases htagged : family.tagged = true
  · obtain ⟨tag, htag, -⟩ := Option.bind_eq_some_iff.mp (Family.ofTag?_tag htagged shape hshape)
    rw [if_pos htagged, htag]
    exact .tagged htagged (.name hshape htag)
  · rw [if_neg htagged]
    cases family with
    | only other =>
        obtain rfl := List.mem_singleton.mp hshape
        exact .only rfl
    | command | typeExpr | accessor | expr => exact absurd rfl htagged

/-! ## Documents -/

/-- A record is decoded where its object or array is, if that is fit within the levels. -/
theorem decodeKind_of_record {family : Family} {kind : Kind}
    (hkind : kind = .record family ∨ kind = .optional family) {v : Value} (hv : v ≠ .null)
    {levels : Nat} {checked : Bool} (hfit : v.strictWithin (levels + 1) = true) {d : Datum}
    (h : decodeRecord (decodeKind levels (checked || family.tagged)) checked family v = .ok d) :
    decodeKind (levels + 1) checked kind v = .ok d := by
  rw [decodeKind_record hkind hv, decodeFamily, hfit, Bool.not_true, Bool.and_false]
  exact h

mutual

/-- Every document of a datum that is fit within the levels is decoded to the datum. -/
theorem decodeKind_spelled : ∀ {kind : Kind} {d : Datum} {v : Value}, d.Spelled kind v →
    ∀ (levels : Nat) (checked : Bool), v.strictWithin levels = true →
      decodeKind levels checked kind v = .ok d
  | _, _, _, .text s, levels, checked, _ =>
      (decodeKind_encode (.text s) .text trivial levels checked).1 (Nat.zero_le _)
  | _, _, _, .number n, levels, checked, _ =>
      (decodeKind_encode (.number n) .number trivial levels checked).1 (Nat.zero_le _)
  | _, _, _, .flag b, levels, checked, _ =>
      (decodeKind_encode (.flag b) .flag trivial levels checked).1 (Nat.zero_le _)
  | _, _, _, .literal w, levels, checked, _ =>
      (decodeKind_encode (.literal w) .literal trivial levels checked).1
        (Nat.le_trans (Nat.le_of_eq (Datum.depth_encodeLiteral w)) (Nat.zero_le _))
  | _, _, _, .unaryOp op, levels, checked, _ =>
      (decodeKind_encode (.unaryOp op) .unaryOp trivial levels checked).1 (Nat.zero_le _)
  | _, _, _, .binaryOp op, levels, checked, _ =>
      (decodeKind_encode (.binaryOp op) .binaryOp trivial levels checked).1 (Nat.zero_le _)
  | _, _, _, .absent family, levels, checked, _ =>
      (decodeKind_encode .absent (.optional family) trivial levels checked).1 (Nat.zero_le _)
  | _, _, _, .list hds, levels, checked, hfit => by
      cases levels with
      | zero => cases hfit
      | succ levels =>
          exact Except.bind_eq_ok.mpr ⟨_, mapM_spelled hds levels checked (List.all_eq_true.mp hfit), rfl⟩
  | _, _, _, @Datum.Spelled.object _ family shape ds given extra fields hkind hshape hgiven hextra
      hfields, levels, checked, hfit => by
      cases levels with
      | zero => cases hfit
      | succ levels =>
          have hgivens : ∀ field ∈ given, field ∈ fields := fun field hfield =>
            hfields.mem_iff.mpr (List.mem_append_left _ (List.mem_append_right _ hfield))
          have hholds := fields_spelled hgiven levels (checked || family.tagged)
            (List.nodup_cons.mp shape.names_fields).2 hgivens
            (fun spec hspec => (mem_keys_iff hextra hfields hspec).mp)
            (fun field hfield =>
              (Bool.and_eq_true_iff.mp (List.all_eq_true.mp hfit field (hgivens field hfield))).2)
          exact decodeKind_of_record hkind (v := .object fields) nofun hfit
            (decodeRecord_object.mpr ⟨shape, ds, tagged_fields hshape hgiven hextra hfields checked,
              fieldsFit_of_holds hgiven hextra hfields hholds, hholds, rfl⟩)
  | _, _, _, .array hkind hshape hitems, levels, checked, hfit => by
      cases levels with
      | zero => cases hfit
      | succ levels =>
          refine decodeKind_of_record hkind (v := .array _) nofun hfit (decodeRecord_array.mpr
            ⟨_, _, _, heads_tagItem hshape checked _, items_spelled hitems levels _ ?_, rfl⟩)
          exact fun v hv => List.all_eq_true.mp hfit v (List.mem_append_right _ hv)

/-- Each item is decoded to its datum. -/
theorem mapM_spelled : ∀ {family : Family} {ds : List Datum} {vs : List Value},
    Datum.ListSpelled family ds vs → ∀ (levels : Nat) (checked : Bool),
      (∀ v ∈ vs, v.strictWithin levels = true) →
      vs.mapM (decodeKind levels checked (.record family)) = .ok ds
  | _, _, _, .nil _, _, _, _ => rfl
  | _, _, _, .cons hd hds, levels, checked, hfit => by
      obtain ⟨hv, hvs⟩ := List.forall_mem_cons.mp hfit
      exact mapM_eq_ok.mpr (.cons (decodeKind_spelled hd levels checked hv)
        (mapM_eq_ok.mp (mapM_spelled hds levels checked hvs)))

/-- The fields that are given hold the data, among whatever fields of the object. -/
theorem fields_spelled : ∀ {specs : List FieldSpec} {ds : List Datum}
    {given : List (Text × Value)}, Datum.FieldsSpelled specs ds given →
    ∀ (levels : Nat) (checked : Bool) {fields : List (Text × Value)},
      (specs.map FieldSpec.name).Nodup → (∀ field ∈ given, field ∈ fields) →
      (∀ spec ∈ specs, some spec.name ∈ keys fields → some spec.name ∈ keys given) →
      (∀ field ∈ given, field.2.strictWithin levels = true) →
      List.Forall₂ (FieldHolds (decodeKind levels checked) fields) specs ds
  | _, _, _, .nil, _, _, _, _, _, _, _ => .nil
  | _, _, _, .given hd hds, levels, checked, fields, hnodup, hmem, hkeys, hfit => by
      rw [List.map_cons, List.nodup_cons] at hnodup
      obtain ⟨hfield, hmem⟩ := List.forall_mem_cons.mp hmem
      obtain ⟨hv, hfit⟩ := List.forall_mem_cons.mp hfit
      refine .cons (.given hfield (decodeKind_spelled hd levels checked hv))
        (fields_spelled hds levels checked hnodup.2 hmem (fun other hother h => ?_) hfit)
      refine (List.mem_cons.mp (hkeys other (List.mem_cons_of_mem _ hother) h)).resolve_left ?_
      intro heq
      exact hnodup.1 (List.mem_map.mpr ⟨other, hother, Option.some.inj heq⟩)
  | _, _, _, .omitted hdefault hds, levels, checked, fields, hnodup, hmem, hkeys, hfit => by
      rw [List.map_cons, List.nodup_cons] at hnodup
      refine .cons (.omitted (fun h => ?_) hdefault)
        (fields_spelled hds levels checked hnodup.2 hmem
          (fun other hother => hkeys other (List.mem_cons_of_mem _ hother)) hfit)
      obtain ⟨_, hname, heq⟩ := List.mem_map.mp
        (hds.sublist.subset (hkeys _ List.mem_cons_self h))
      exact hnodup.1 (Option.some.inj heq ▸ hname)

/-- The items are decoded in the order of the schema. -/
theorem items_spelled : ∀ {specs : List FieldSpec} {ds : List Datum} {items : List Value},
    Datum.ItemsSpelled specs ds items → ∀ (levels : Nat) (checked : Bool),
      (∀ v ∈ items, v.strictWithin levels = true) →
      decodeItems (decodeKind levels checked) specs items = .ok ds
  | _, _, _, .omitted hdefaults, _, _, _ => decodeItems_nil _ hdefaults
  | _, _, _, .given hd hds, levels, checked, hfit => by
      obtain ⟨hv, hvs⟩ := List.forall_mem_cons.mp hfit
      exact Except.bind_eq_ok.mpr ⟨_, decodeKind_spelled hd levels checked hv,
        Except.bind_eq_ok.mpr ⟨_, items_spelled hds levels checked hvs, rfl⟩⟩

end

end ByteJump.Syntax
