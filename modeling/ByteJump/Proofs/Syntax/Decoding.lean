import ByteJump.Proofs.Json.Reading
import ByteJump.Syntax.Decode

set_option autoImplicit false

/-!
# Decoding encoded data

A datum of a kind is decoded from its document where arrays and objects may nest as deep as they do
there, and nowhere else.

The decoder is given a bound on how deep arrays and objects nest, and counts it down as it goes
inside.  So `Decodes decode levels kind d` has two halves: within the bound the datum is decoded
from what it is encoded to, and beyond it decoding fails.  For a record this needs that its shape
is found by its tag, and each of its fields by its name: the names are those of the format, all
different, which is checked by computation for all shapes at once in `Shape.names_fields`.  The
induction is on the datum and goes through records and lists; the bound drops by one for each
array or object on the way.
-/

namespace ByteJump.Syntax

open Json

/-! ## Data of a kind

A datum has no types of its own; its kind says which form it has to have.  For a record this is
one shape of its family, with a datum of the right kind in each field. -/

mutual

/-- The datum is one of the kind. -/
def Datum.Of : Kind → Datum → Prop
  | .text, .text _ | .number, .number _ | .flag, .flag _ | .literal, .literal _
  | .unaryOp, .unaryOp _ | .binaryOp, .binaryOp _ | .optional _, .absent => True
  | .record family, .record shape fields | .optional family, .record shape fields =>
      shape ∈ family.shapes ∧ Datum.FieldsOf shape.fields fields
  | .list family, .list items => Datum.AllOf (.record family) items
  | _, _ => False

/-- All data are of the kind. -/
def Datum.AllOf (kind : Kind) : List Datum → Prop
  | [] => True
  | d :: ds => Datum.Of kind d ∧ Datum.AllOf kind ds

/-- The data are those of the fields. -/
def Datum.FieldsOf : List FieldSpec → List Datum → Prop
  | [], [] => True
  | spec :: specs, d :: ds => Datum.Of spec.kind d ∧ Datum.FieldsOf specs ds
  | _, _ => False

end

/-! ## Encoded data

What is encoded is plain: its numbers are natural, and its strings are made of characters.  So its
text is read back to it. -/

namespace Datum

theorem isPlain_encodeLiteral (w : Word128) : (encodeLiteral w).isPlain = true := by
  unfold encodeLiteral
  split <;> rfl

theorem fieldsPlain_tagField (shape : Shape) (fields : List (Text × Value)) :
    Value.fieldsPlain (shape.tagField ++ fields) = Value.fieldsPlain fields := by
  unfold Shape.tagField
  cases shape.tag <;> rfl

theorem fieldsDepth_tagField (shape : Shape) (fields : List (Text × Value)) :
    Value.fieldsDepth (shape.tagField ++ fields) = Value.fieldsDepth fields := by
  unfold Shape.tagField
  cases shape.tag with
  | none => rfl
  | some tag => exact Nat.zero_max _

mutual

/-- All documents of data are plain. -/
theorem isPlain_encode : ∀ d : Datum, d.encode.isPlain = true
  | .text _ | .number _ | .flag _ | .unaryOp _ | .binaryOp _ | .absent => rfl
  | .literal w => isPlain_encodeLiteral w
  | .list items => by
      rw [encode, Value.isPlain]
      exact itemsPlain_encode items
  | .record shape fields => by
      rw [encode, Value.isPlain, fieldsPlain_tagField]
      exact fieldsPlain_encode shape.fields fields

/-- Each item is plain. -/
theorem itemsPlain_encode : ∀ ds : List Datum, Value.itemsPlain (encodeList ds) = true
  | [] => rfl
  | d :: ds => by
      rw [encodeList, Value.itemsPlain, isPlain_encode d, itemsPlain_encode ds]
      rfl

theorem fieldsPlain_encode : ∀ (specs : List FieldSpec) (ds : List Datum),
    Value.fieldsPlain (encodeFields specs ds) = true
  | [], _ => by
      rw [encodeFields]
      · rfl
      · exact nofun
  | _ :: _, [] => rfl
  | spec :: specs, d :: ds => by
      rw [encodeFields, Value.fieldsPlain, isPlain_encode d, fieldsPlain_encode specs ds]
      rfl

end

theorem depth_encodeLiteral (w : Word128) : (encodeLiteral w).depth = 0 := by
  unfold encodeLiteral
  split <;> rfl

end Datum

/-! ## Shapes -/

/-- The tag of a shape names it in its family. -/
theorem Family.ofTag?_tag {family : Family} (htagged : family.tagged = true) :
    ∀ shape ∈ family.shapes, shape.tag.bind family.ofTag? = some shape := by
  cases family with
  | only other => cases htagged
  | command | typeExpr | accessor | expr => decide

/-- The fields of a shape have different names, and none is that of the tag. -/
theorem Shape.names_fields (shape : Shape) :
    (tagKey :: shape.fields.map FieldSpec.name).Nodup := by
  cases shape <;> decide

/-! ## Records

The encoder writes the tag first and then the fields in order.  The decoder collects fields in any
order, so it finds what was written, and arranges it in the order it had. -/

/-- In place of the kind the datum is decoded from its document if this nests within the levels, and
otherwise decoding fails. -/
def Decodes (decode : Kind → Decoder Datum) (levels : Nat) (kind : Kind) (d : Datum) : Prop :=
  (d.encode.depth ≤ levels → decode kind d.encode = .ok d) ∧
    (levels < d.encode.depth → ∃ fault, decode kind d.encode = .error fault)

/-- All data are decoded in place of the fields, each on its own. -/
def FieldsDecode (decode : Kind → Decoder Datum) (levels : Nat) :
    List FieldSpec → List Datum → Prop
  | [], [] => True
  | spec :: specs, d :: ds => Decodes decode levels spec.kind d ∧ FieldsDecode decode levels specs ds
  | _, _ => False

section Records

variable {decode : Kind → Decoder Datum} {levels : Nat}

/-- A field is collected if it is known and new. -/
theorem collect_cons {specs : List FieldSpec} {found : List (String × Datum)} {spec : FieldSpec}
    {v : Value} {rest : List (Text × Value)}
    (hknown : specs.find? (fun other => other.name = spec.name) = some spec)
    (hnew : found.any (fun entry => entry.1 = spec.name) = false) :
    collect decode specs found ((some spec.name, v) :: rest) =
      (decode spec.kind v >>= fun d => collect decode specs ((spec.name, d) :: found) rest) := by
  rw [collect]
  simp only [hknown, hnew, Bool.false_eq_true, if_false]

/-- Encoded fields are collected in order, behind those that were found before. -/
theorem collect_encodeFields {known : List FieldSpec} : ∀ (specs : List FieldSpec)
    (ds : List Datum) (found : List (String × Datum)), (specs.map FieldSpec.name).Nodup →
    (∀ spec ∈ specs, known.find? (fun other => other.name = spec.name) = some spec) →
    (∀ spec ∈ specs, ∀ entry ∈ found, entry.1 ≠ spec.name) →
    FieldsDecode decode levels specs ds →
    (Value.fieldsDepth (Datum.encodeFields specs ds) ≤ levels →
        collect decode known found (Datum.encodeFields specs ds) =
          .ok (found.reverse ++ (specs.map FieldSpec.name).zip ds)) ∧
      (levels < Value.fieldsDepth (Datum.encodeFields specs ds) →
        ∃ fault, collect decode known found (Datum.encodeFields specs ds) = .error fault)
  | [], [], found, _, _, _, _ => by
      refine ⟨fun _ => ?_, fun hdeep => nomatch hdeep⟩
      rw [List.map_nil, List.zip_nil_left, List.append_nil]
      rfl
  | spec :: specs, d :: ds, found, hnodup, hknown, hnew, hdecode => by
      rw [List.map_cons, List.nodup_cons] at hnodup
      have hnone : found.any (fun entry => entry.1 = spec.name) = false := by
        simpa using fun key value hentry => hnew spec List.mem_cons_self (key, value) hentry
      obtain ⟨hok, hfails⟩ := collect_encodeFields specs ds ((spec.name, d) :: found) hnodup.2
        (fun other hother => hknown other (List.mem_cons_of_mem _ hother))
        (fun other hother => List.forall_mem_cons.mpr
          ⟨fun heq => hnodup.1 (List.mem_map.mpr ⟨other, hother, heq.symm⟩),
            hnew other (List.mem_cons_of_mem _ hother)⟩) hdecode.2
      rw [Datum.encodeFields, Value.fieldsDepth,
        collect_cons (hknown spec List.mem_cons_self) hnone]
      constructor
      · intro hdepth
        rw [hdecode.1.1 (Nat.le_trans (Nat.le_max_left _ _) hdepth)]
        refine (hok (Nat.le_trans (Nat.le_max_right _ _) hdepth)).trans ?_
        rw [List.reverse_cons, List.append_assoc]
        rfl
      · intro hdeep
        by_cases hhead : levels < d.encode.depth
        · obtain ⟨fault, hfault⟩ := hdecode.1.2 hhead
          exact ⟨fault, by rw [hfault]; rfl⟩
        · have hhead := Nat.le_of_not_lt hhead
          rw [hdecode.1.1 hhead]
          refine hfails ?_
          omega

/-- Fields that were all found are arranged in their order. -/
theorem arrange_zip : ∀ (specs : List FieldSpec) (ds : List Datum) (front : List (String × Datum)),
    (specs.map FieldSpec.name).Nodup → (∀ spec ∈ specs, ∀ entry ∈ front, entry.1 ≠ spec.name) →
    FieldsDecode decode levels specs ds →
    arrange specs (front ++ (specs.map FieldSpec.name).zip ds) = .ok ds
  | [], [], _, _, _, _ => rfl
  | spec :: specs, d :: ds, front, hnodup, hnew, hdecode => by
      rw [List.map_cons, List.nodup_cons] at hnodup
      have hfind : (front ++ (spec.name, d) :: (specs.map FieldSpec.name).zip ds).find?
          (fun entry => entry.1 = spec.name) = some (spec.name, d) := by
        rw [List.find?_append, List.find?_eq_none.mpr, Option.none_or, List.find?_cons]
        · simp
        · simpa using fun key value hentry => hnew spec List.mem_cons_self (key, value) hentry
      have hrest := arrange_zip specs ds (front ++ [(spec.name, d)]) hnodup.2
        (fun other hother => List.forall_mem_append.mpr
          ⟨hnew other (List.mem_cons_of_mem _ hother), List.forall_mem_singleton.mpr
            fun heq => hnodup.1 (List.mem_map.mpr ⟨other, hother, heq.symm⟩)⟩) hdecode.2
      rw [List.append_assoc, List.singleton_append] at hrest
      unfold arrange at hrest ⊢
      rw [List.map_cons, List.zip_cons_cons, List.mapM_cons, hrest, hfind]
      rfl

/-- No field of a record has the name of the tag. -/
theorem findTag_encodeFields (family : Family) (numbered : Bool) (shape : Shape) :
    ∀ (specs : List FieldSpec) (ds : List Datum), tagKey ∉ specs.map FieldSpec.name →
      family.findTag numbered (some shape) (Datum.encodeFields specs ds) = .ok shape
  | [], _, _ => by
      rw [Datum.encodeFields]
      · rfl
      · exact nofun
  | _ :: _, [], _ => rfl
  | spec :: specs, d :: ds, h => by
      rw [List.map_cons, List.mem_cons, not_or] at h
      have hkey : some spec.name ≠ some tagKey := fun heq => h.1 (Option.some.inj heq).symm
      rw [Datum.encodeFields, Family.findTag, if_neg hkey]
      exact findTag_encodeFields family numbered shape specs ds h.2

/-- The shape of an encoded record is found. -/
theorem findTag_encode {family : Family} (htagged : family.tagged = true) (numbered : Bool)
    {shape : Shape} (hshape : shape ∈ family.shapes) (ds : List Datum) :
    family.findTag numbered none (shape.tagField ++ Datum.encodeFields shape.fields ds) =
      .ok shape := by
  have htag := Family.ofTag?_tag htagged shape hshape
  unfold Shape.tagField
  cases hnamed : shape.tag with
  | none =>
      rw [hnamed] at htag
      cases htag
  | some tag =>
      rw [hnamed] at htag
      have hof : family.ofTag? tag = some shape := htag
      have hrest := findTag_encodeFields family numbered shape shape.fields ds
        (List.nodup_cons.mp shape.names_fields).1
      show family.findTag numbered none ((some tagKey, .ofString tag) :: _) = _
      rw [Family.findTag, if_pos rfl]
      show (Family.ofTag family numbered (.string (some tag)) >>= fun shape => _) = _
      rw [Family.ofTag]
      simp only [hof]
      exact hrest

/-- The tag is no field, and is passed over. -/
theorem collect_tagField (shape : Shape) (fields : List (Text × Value)) :
    collect decode shape.fields [] (shape.tagField ++ fields) =
      collect decode shape.fields [] fields := by
  unfold Shape.tagField
  cases shape.tag with
  | none => rfl
  | some tag =>
      have hnone : shape.fields.find? (fun spec => spec.name = tagKey) = none := by
        rw [List.find?_eq_none]
        intro spec hspec heq
        refine (List.nodup_cons.mp shape.names_fields).1 (List.mem_map.mpr ⟨spec, hspec, ?_⟩)
        exact of_decide_eq_true heq
      show collect decode shape.fields [] ((some tagKey, .ofString tag) :: fields) = _
      rw [collect]
      simp only [hnone]
      rfl

/-- A specification is found by its name, if names differ. -/
theorem find?_of_nodup {specs : List FieldSpec} (h : (specs.map FieldSpec.name).Nodup) :
    ∀ spec ∈ specs, specs.find? (fun other => other.name = spec.name) = some spec := by
  induction specs with
  | nil => exact fun spec hspec => nomatch hspec
  | cons first specs ih =>
      rw [List.map_cons, List.nodup_cons] at h
      intro spec hspec
      rw [List.find?_cons]
      rcases List.mem_cons.mp hspec with rfl | hmem
      · simp
      · have hne : first.name ≠ spec.name :=
          fun heq => h.1 (List.mem_map.mpr ⟨spec, hmem, heq.symm⟩)
        rw [decide_eq_false hne]
        exact ih h.2 spec hmem

/-- A record is decoded if its fields are. -/
theorem decodeRecord_encode {family : Family} (numbered : Bool) {shape : Shape}
    (hshape : shape ∈ family.shapes) {ds : List Datum}
    (h : FieldsDecode decode levels shape.fields ds) :
    ((Datum.record shape ds).encode.depth ≤ levels + 1 →
        decodeRecord decode numbered family (Datum.record shape ds).encode =
          .ok (.record shape ds)) ∧
      (levels + 1 < (Datum.record shape ds).encode.depth →
        ∃ fault, decodeRecord decode numbered family (Datum.record shape ds).encode =
          .error fault) := by
  have hnodup := (List.nodup_cons.mp shape.names_fields).2
  have harrange := arrange_zip shape.fields ds [] hnodup (fun _ _ _ hentry => nomatch hentry) h
  obtain ⟨hok, hfails⟩ := collect_encodeFields shape.fields ds [] hnodup (find?_of_nodup hnodup)
    (fun _ _ _ hentry => nomatch hentry) h
  have hrecord : decodeRecord decode numbered family (Datum.record shape ds).encode =
      (collect decode shape.fields [] (Datum.encodeFields shape.fields ds) >>= fun found =>
        arrange shape.fields found >>= fun ds => .ok (.record shape ds)) := by
    rw [Datum.encode, ← collect_tagField]
    cases family with
    | only other =>
        obtain rfl := List.mem_singleton.mp hshape
        rfl
    | command | typeExpr | accessor | expr =>
        rw [decodeRecord]
        · simp only [findTag_encode rfl numbered hshape ds]
          rfl
        · exact nofun
  rw [hrecord, Datum.encode, Value.depth, Datum.fieldsDepth_tagField]
  constructor
  · intro hdepth
    rw [hok (Nat.le_of_succ_le_succ hdepth)]
    show (arrange shape.fields _ >>= _) = _
    rw [List.reverse_nil, harrange]
    rfl
  · intro hdeep
    obtain ⟨fault, hfault⟩ := hfails (Nat.lt_of_succ_lt_succ hdeep)
    exact ⟨fault, by rw [hfault]; rfl⟩

end Records

/-! ## Data

Lists and records are one level deeper than their parts.  Scalars take no level at all. -/

/-- Items of an array are decoded each on its own. -/
theorem mapM_encodeList {decode : Kind → Decoder Datum} {levels : Nat} {kind : Kind} :
    ∀ ds : List Datum, (∀ d ∈ ds, Decodes decode levels kind d) →
    (Value.itemsDepth (Datum.encodeList ds) ≤ levels →
        (Datum.encodeList ds).mapM (decode kind) = .ok ds) ∧
      (levels < Value.itemsDepth (Datum.encodeList ds) →
        ∃ fault, (Datum.encodeList ds).mapM (decode kind) = .error fault)
  | [], _ => ⟨fun _ => rfl, fun hdeep => nomatch hdeep⟩
  | d :: ds, h => by
      obtain ⟨hok, hfails⟩ := mapM_encodeList ds fun other hother =>
        h other (List.mem_cons_of_mem _ hother)
      obtain ⟨hd, hdfails⟩ := h d List.mem_cons_self
      rw [Datum.encodeList, Value.itemsDepth, List.mapM_cons]
      constructor
      · intro hdepth
        rw [hd (Nat.le_trans (Nat.le_max_left _ _) hdepth)]
        show ((Datum.encodeList ds).mapM (decode kind) >>= _) = _
        rw [hok (Nat.le_trans (Nat.le_max_right _ _) hdepth)]
        rfl
      · intro hdeep
        by_cases hhead : levels < d.encode.depth
        · obtain ⟨fault, hfault⟩ := hdfails hhead
          exact ⟨fault, by rw [hfault]; rfl⟩
        · obtain ⟨fault, hfault⟩ := hfails (by omega)
          rw [hd (Nat.le_of_not_lt hhead)]
          refine ⟨fault, ?_⟩
          show ((Datum.encodeList ds).mapM (decode kind) >>= _) = _
          rw [hfault]
          rfl

/-- A scalar is decoded at any depth. -/
theorem Decodes.scalar {decode : Kind → Decoder Datum} {levels : Nat} {kind : Kind} {d : Datum}
    (hdepth : d.encode.depth = 0) (h : decode kind d.encode = .ok d) :
    Decodes decode levels kind d :=
  ⟨fun _ => h, fun hdeep => by rw [hdepth] at hdeep; exact absurd hdeep (Nat.not_lt_zero _)⟩

/-- A record of a family is decoded where its fields are decoded one level further in. -/
theorem decodeFamily_encode {levels : Nat} {checked : Bool} {family : Family} {shape : Shape}
    (hshape : shape ∈ family.shapes) {ds : List Datum}
    (h : ∀ checked, FieldsDecode (decodeKind levels checked) levels shape.fields ds) :
    ((Datum.record shape ds).encode.depth ≤ levels + 1 →
        decodeFamily (decodeKind levels) levels checked family (Datum.record shape ds).encode =
          .ok (.record shape ds)) ∧
      (levels + 1 < (Datum.record shape ds).encode.depth →
        ∃ fault, decodeFamily (decodeKind levels) levels checked family
          (Datum.record shape ds).encode = .error fault) := by
  have hfit := Value.strictWithin_iff (levels + 1) (Datum.isPlain_encode (.record shape ds))
  obtain ⟨hok, hfails⟩ := decodeRecord_encode checked hshape (h (checked || family.tagged))
  unfold decodeFamily
  constructor
  · intro hdepth
    rw [hfit.mpr hdepth, Bool.not_true, Bool.and_false]
    exact hok hdepth
  · intro hdeep
    split
    · exact ⟨_, rfl⟩
    · exact hfails hdeep

theorem decodeKind_scalar (levels : Nat) (checked : Bool) {kind : Kind} (v : Value)
    (h : ∀ family, kind ≠ .record family ∧ kind ≠ .list family ∧ kind ≠ .optional family) :
    decodeKind levels checked kind v = decodeScalar kind v := by
  cases kind with
  | record family => exact absurd rfl (h family).1
  | list family => exact absurd rfl (h family).2.1
  | optional family => exact absurd rfl (h family).2.2
  | text | number | flag | literal | unaryOp | binaryOp => cases levels <;> rfl

theorem Decodes.ofScalar {levels : Nat} {checked : Bool} {kind : Kind} {d : Datum}
    (hkind : ∀ family, kind ≠ .record family ∧ kind ≠ .list family ∧ kind ≠ .optional family)
    (hdepth : d.encode.depth = 0) (h : decodeScalar kind d.encode = .ok d) :
    Decodes (decodeKind levels checked) levels kind d :=
  .scalar hdepth ((decodeKind_scalar levels checked _ hkind).trans h)

/-- An array or an object lies too deep where none may stand. -/
theorem Decodes.tooDeep {checked : Bool} {kind : Kind} {d : Datum} (hdepth : 0 < d.encode.depth)
    (h : decodeKind 0 checked kind d.encode = .error .tooDeep) :
    Decodes (decodeKind 0 checked) 0 kind d :=
  ⟨fun hflat => absurd hdepth (Nat.not_lt_of_le hflat), fun _ => ⟨_, h⟩⟩

/-- A record in place of a kind that allows it. -/
theorem Decodes.record {family : Family} {kind : Kind}
    (hkind : kind = .record family ∨ kind = .optional family) {shape : Shape}
    (hshape : shape ∈ family.shapes) {ds : List Datum}
    (h : ∀ levels checked, FieldsDecode (decodeKind levels checked) levels shape.fields ds)
    (levels : Nat) (checked : Bool) :
    Decodes (decodeKind levels checked) levels kind (.record shape ds) := by
  cases levels with
  | zero =>
      refine .tooDeep (Nat.succ_pos _) ?_
      rcases hkind with rfl | rfl <;> rfl
  | succ levels =>
      have hfamily : decodeKind (levels + 1) checked kind (Datum.record shape ds).encode =
          decodeFamily (decodeKind levels) levels checked family (Datum.record shape ds).encode := by
        rcases hkind with rfl | rfl <;> rfl
      unfold Decodes
      rw [hfamily]
      exact decodeFamily_encode hshape (h levels)

/-- A list of records. -/
theorem Decodes.list {family : Family} {ds : List Datum}
    (h : ∀ levels checked, ∀ d ∈ ds, Decodes (decodeKind levels checked) levels (.record family) d)
    (levels : Nat) (checked : Bool) :
    Decodes (decodeKind levels checked) levels (.list family) (.list ds) := by
  cases levels with
  | zero => exact .tooDeep (Nat.succ_pos _) rfl
  | succ levels =>
      obtain ⟨hok, hfails⟩ := mapM_encodeList ds (h levels checked)
      have hitems : decodeKind (levels + 1) checked (.list family) (Datum.list ds).encode =
          ((Datum.encodeList ds).mapM (decodeKind levels checked (.record family)) >>= fun ds =>
            .ok (.list ds)) := rfl
      unfold Decodes
      rw [hitems, Datum.encode, Value.depth]
      constructor
      · intro hdepth
        rw [hok (Nat.le_of_succ_le_succ hdepth)]
        rfl
      · intro hdeep
        obtain ⟨fault, hfault⟩ := hfails (Nat.lt_of_succ_lt_succ hdeep)
        exact ⟨fault, by rw [hfault]; rfl⟩

mutual

/-- A datum of a kind is decoded exactly where its document nests within the levels. -/
theorem decodeKind_encode : ∀ (d : Datum) (kind : Kind), d.Of kind → ∀ (levels : Nat)
    (checked : Bool), Decodes (decodeKind levels checked) levels kind d
  | .text _, .text, _, _, _ | .number _, .number, _, _, _ | .flag _, .flag, _, _, _ =>
      .ofScalar (fun _ => ⟨nofun, nofun, nofun⟩) rfl rfl
  | .literal w, .literal, _, _, _ => by
      refine .ofScalar (fun _ => ⟨nofun, nofun, nofun⟩) (Datum.depth_encodeLiteral w) ?_
      rw [Datum.encode, decodeScalar, decodeLiteral_encode]
      rfl
  | .unaryOp op, .unaryOp, _, _, _ => by
      refine .ofScalar (fun _ => ⟨nofun, nofun, nofun⟩) rfl ?_
      have hsymbol : (symbol? (Datum.unaryOp op).encode).bind UnaryOp.ofSymbol? = some op :=
        UnaryOp.ofSymbol?_symbol op
      rw [decodeScalar, hsymbol]
  | .binaryOp op, .binaryOp, _, _, _ => by
      refine .ofScalar (fun _ => ⟨nofun, nofun, nofun⟩) rfl ?_
      have hsymbol : (symbol? (Datum.binaryOp op).encode).bind BinaryOp.ofSymbol? = some op :=
        BinaryOp.ofSymbol?_symbol op
      rw [decodeScalar, hsymbol]
  | .absent, .optional family, _, levels, _ =>
      .scalar rfl (by cases levels <;> rfl)
  | .record shape ds, .record family, h, levels, checked =>
      .record (Or.inl rfl) h.1 (fields_decode ds shape.fields h.2) levels checked
  | .record shape ds, .optional family, h, levels, checked =>
      .record (Or.inr rfl) h.1 (fields_decode ds shape.fields h.2) levels checked
  | .list ds, .list family, h, levels, checked =>
      .list (all_decode ds (.record family) h) levels checked

/-- Each item of a list is decoded. -/
theorem all_decode : ∀ (ds : List Datum) (kind : Kind), Datum.AllOf kind ds → ∀ (levels : Nat)
    (checked : Bool), ∀ d ∈ ds, Decodes (decodeKind levels checked) levels kind d
  | [], _, _, _, _ => fun _ hd => nomatch hd
  | d :: ds, kind, h, levels, checked => List.forall_mem_cons.mpr
      ⟨decodeKind_encode d kind h.1 levels checked, all_decode ds kind h.2 levels checked⟩

/-- Each field of a record is decoded. -/
theorem fields_decode : ∀ (ds : List Datum) (specs : List FieldSpec), Datum.FieldsOf specs ds →
    ∀ (levels : Nat) (checked : Bool), FieldsDecode (decodeKind levels checked) levels specs ds
  | [], [], _, _, _ => trivial
  | d :: ds, spec :: specs, h, levels, checked =>
      ⟨decodeKind_encode d spec.kind h.1 levels checked, fields_decode ds specs h.2 levels checked⟩

end

/-- A datum of a kind is decoded from its text exactly if its document nests within the limit. -/
theorem decodeText_encode {kind : Kind} {d : Datum} (h : d.Of kind) :
    (d.encode.depth ≤ depthLimit → decodeText kind d.encode.print = .ok d) ∧
      (depthLimit < d.encode.depth →
        ∃ fault, decodeText kind d.encode.print = .error fault) := by
  obtain ⟨hok, hfails⟩ := decodeKind_encode d kind h depthLimit false
  have htext : decodeText kind d.encode.print =
      (decodeKind depthLimit false kind d.encode >>= fun d => .ok d) := by
    unfold decodeText
    rw [read_print (Datum.isPlain_encode d)]
    rfl
  rw [htext]
  constructor
  · intro hdepth
    rw [hok hdepth]
    rfl
  · intro hdeep
    obtain ⟨fault, hfault⟩ := hfails hdeep
    exact ⟨fault, by rw [hfault]; rfl⟩

end ByteJump.Syntax
