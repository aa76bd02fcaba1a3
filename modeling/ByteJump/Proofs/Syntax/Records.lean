import Mathlib.Data.List.Nodup
import ByteJump.Proofs.Results
import ByteJump.Proofs.Syntax.Decoding

set_option autoImplicit false

/-!
# When records are decoded

What each step in the decoding of a record asks for, and what it gives then: the tag that names a
shape, the tag among the fields of an object, the fields in whatever order they come, and the items
of an array.

A record stands in the text as an object, with its fields in any order and others among them, or
as an array with the fields in the order of the format.  A family of records is told apart by a
tag, which is a field of the object, or the first item of the array.  The decoder goes through
this in steps, and each step is inverted here: `decodeRecord_eq_ok` says for both forms exactly
when there is a result and which one.  The hypothesis throughout is that the specifications of the
fields have different names, which holds of every shape of the format.
-/

namespace ByteJump.Syntax

open Json

/-! ## Tags

A tag is a name, or its number where numbers are allowed.  It is found among the fields wherever
it stands, once. -/

/-- The tag names the shape in the family; where numbers count, that of the shape does too. -/
inductive Family.Names (family : Family) (numbered : Bool) (shape : Shape) : Value → Prop
  | name {tag : String} (hshape : shape ∈ family.shapes) (htag : shape.tag = some tag) :
      Names family numbered shape (.ofString tag)
  | number {n : UInt64} (hnumbered : numbered = true) (hn : family.shapes[n.toNat]? = some shape) :
      Names family numbered shape (.number (.natural n))

/-- A shape that is named is one of the family. -/
theorem Family.Names.mem {family : Family} {numbered : Bool} {shape : Shape} {tag : Value}
    (h : family.Names numbered shape tag) : shape ∈ family.shapes := by
  cases h with
  | name hshape => exact hshape
  | number _ hn => exact List.mem_of_getElem? hn

/-- A tag is understood where it names a shape. -/
theorem Family.ofTag_eq_ok {family : Family} (htagged : family.tagged = true) {numbered : Bool}
    {tag : Value} {shape : Shape} :
    family.ofTag numbered tag = .ok shape ↔ family.Names numbered shape tag := by
  constructor
  · intro h
    unfold ofTag at h
    split at h
    · rename_i name
      cases hfind : family.ofTag? name with
      | none =>
          rw [hfind] at h
          cases h
      | some found =>
          rw [hfind] at h
          cases h
          unfold ofTag? at hfind
          have htag := List.find?_some hfind
          exact .name (List.mem_of_find?_eq_some hfind) (of_decide_eq_true htag)
    · split at h
      · rename_i found hfound
        split at h
        · rename_i hnumbered
          cases h
          exact .number hnumbered hfound
        · cases h
      · cases h
    · cases h
  · intro h
    cases h with
    | @name name hshape htag =>
        have hfind := Family.ofTag?_tag htagged shape hshape
        rw [htag] at hfind
        have hof : family.ofTag? name = some shape := hfind
        show family.ofTag numbered (.string (some name)) = _
        simp only [ofTag, hof]
    | number hnumbered hn => simp only [ofTag, hn, hnumbered, if_true]

/-- The keys of the fields of an object. -/
def keys (fields : List (Text × Value)) : List Text := fields.map Prod.fst

/-- Of a key that stands once there is one value. -/
theorem eq_of_count {key : Text} {v w : Value} : ∀ {fields : List (Text × Value)},
    (keys fields).count key ≤ 1 → (key, v) ∈ fields → (key, w) ∈ fields → v = w
  | f :: fields, hcount, hv, hw => by
      rw [keys, List.map_cons, List.count_cons] at hcount
      have hlater {u : Value} (hu : (key, u) ∈ fields) : f.1 ≠ key := by
        rintro rfl
        have hpos : 0 < (fields.map Prod.fst).count f.1 :=
          List.count_pos_iff.mpr (List.mem_map.mpr ⟨_, hu, rfl⟩)
        rw [beq_self_eq_true, if_pos rfl] at hcount
        omega
      rcases List.mem_cons.mp hv with rfl | hv <;> rcases List.mem_cons.mp hw with hw | hw
      · cases hw
        rfl
      · exact absurd rfl (hlater hw)
      · exact absurd (congrArg Prod.fst hw).symm (hlater hv)
      · exact eq_of_count (Nat.le_of_add_right_le hcount) hv hw

/-- Once the tag was found, it may not be repeated. -/
theorem findTag_some {family : Family} {numbered : Bool} {found shape : Shape}
    {fields : List (Text × Value)} : family.findTag numbered (some found) fields = .ok shape ↔
      some tagKey ∉ keys fields ∧ found = shape := by
  induction fields with
  | nil =>
      rw [Family.findTag, Except.ok.injEq]
      exact ⟨fun h => ⟨List.not_mem_nil, h⟩, And.right⟩
  | cons field fields ih =>
      obtain ⟨key, v⟩ := field
      rw [Family.findTag, keys, List.map_cons, List.mem_cons, not_or]
      by_cases hkey : key = some tagKey
      · rw [if_pos hkey]
        constructor
        · intro h
          cases h
        · intro h
          exact absurd hkey.symm h.1.1
      · rw [if_neg hkey, ih, keys]
        exact ⟨fun h => ⟨⟨fun heq => hkey heq.symm, h.1⟩, h.2⟩, fun h => ⟨h.1.2, h.2⟩⟩

/-- The tag is found where it stands once. -/
theorem findTag_none {family : Family} {numbered : Bool} {shape : Shape} :
    ∀ {fields : List (Text × Value)}, family.findTag numbered none fields = .ok shape ↔
      (keys fields).count (some tagKey) = 1 ∧
        ∀ v, (some tagKey, v) ∈ fields → family.ofTag numbered v = .ok shape
  | [] => ⟨nofun, fun h => nomatch h.1⟩
  | (key, v) :: fields => by
      rw [Family.findTag, keys, List.map_cons, List.count_cons]
      by_cases hkey : key = some tagKey
      · subst hkey
        rw [if_pos rfl, beq_self_eq_true, if_pos rfl, Except.bind_eq_ok]
        constructor
        · rintro ⟨found, hfound, hrest⟩
          obtain ⟨hnone, rfl⟩ := findTag_some.mp hrest
          refine ⟨congrArg (· + 1) (List.count_eq_zero.mpr hnone), fun w hw => ?_⟩
          rcases List.mem_cons.mp hw with heq | hw
          · cases heq
            exact hfound
          · exact absurd (List.mem_map.mpr ⟨_, hw, rfl⟩) hnone
        · rintro ⟨hcount, hnames⟩
          refine ⟨shape, hnames v List.mem_cons_self, findTag_some.mpr ⟨?_, rfl⟩⟩
          exact List.count_eq_zero.mp (Nat.succ.inj hcount)
      · rw [if_neg hkey, findTag_none, beq_eq_false_iff_ne.mpr hkey, if_neg Bool.false_ne_true,
          Nat.add_zero, keys]
        refine and_congr_right fun _ => ⟨fun h w hw => ?_, fun h w hw => ?_⟩
        · rcases List.mem_cons.mp hw with heq | hw
          · exact absurd (congrArg Prod.fst heq).symm hkey
          · exact h w hw
        · exact h w (List.mem_cons_of_mem _ hw)

/-! ## Fields

The fields are collected from the front.  `Fresh` is the invariant of this: what was found so far
is what the fields so far hold, and nothing was found twice.  In the end `held` is the list of
what the fields hold, and `arrange_eq_ok` puts it into the order of the format, with what is
absent filled in. -/

section Fields

variable {decode : Kind → Decoder Datum} {specs : List FieldSpec}

/-- The known fields among those of an object, with what they hold. -/
def held (decode : Kind → Decoder Datum) (specs : List FieldSpec)
    (fields : List (Text × Value)) : List (String × Datum) :=
  fields.filterMap fun field => do
    let key ← field.1
    let spec ← specs.find? fun spec => spec.name = key
    let d ← (decode spec.kind field.2).toOption
    return (key, d)

/-- The fields of an object can be collected: all keys are made of characters, unknown fields hold
JSON, and the known ones hold data and are not repeated. -/
structure FieldsFit (decode : Kind → Decoder Datum) (specs : List FieldSpec)
    (fields : List (Text × Value)) : Prop where
  keys : ∀ field ∈ fields, field.1.isSome = true
  skipped : ∀ field ∈ fields, (∀ spec ∈ specs, field.1 ≠ some spec.name) → field.2.wellFormed = true
  decoded : ∀ spec ∈ specs, ∀ v, (some spec.name, v) ∈ fields → ∃ d, decode spec.kind v = .ok d
  once : ∀ spec ∈ specs, (Syntax.keys fields).count (some spec.name) ≤ 1

/-- Of no fields there is nothing to ask. -/
theorem fieldsFit_nil : FieldsFit decode specs [] where
  keys := List.forall_mem_nil _
  skipped := List.forall_mem_nil _
  decoded _ _ _ hmem := absurd hmem List.not_mem_nil
  once _ _ := Nat.zero_le _

/-- An unknown field only has to hold JSON. -/
theorem fieldsFit_skip {key : String} (hkey : ∀ spec ∈ specs, key ≠ spec.name) {v : Value}
    {fields : List (Text × Value)} : FieldsFit decode specs ((some key, v) :: fields) ↔
      v.wellFormed = true ∧ FieldsFit decode specs fields := by
  have hne : ∀ spec ∈ specs, some key ≠ some spec.name := fun spec hspec heq =>
    hkey spec hspec (Option.some.inj heq)
  constructor
  · intro h
    refine ⟨h.skipped _ List.mem_cons_self hne, fun field hfield => h.keys field ?_,
      fun field hfield => h.skipped field ?_, fun spec hspec v hv => h.decoded spec hspec v ?_,
      fun spec hspec => ?_⟩
    · exact List.mem_cons_of_mem _ hfield
    · exact List.mem_cons_of_mem _ hfield
    · exact List.mem_cons_of_mem _ hv
    · exact Nat.le_trans List.count_le_count_cons (h.once spec hspec)
  · rintro ⟨hv, h⟩
    refine ⟨List.forall_mem_cons.mpr ⟨rfl, h.keys⟩,
      List.forall_mem_cons.mpr ⟨fun _ => hv, h.skipped⟩, fun spec hspec w hw => ?_,
      fun spec hspec => ?_⟩
    · rcases List.mem_cons.mp hw with heq | hw
      · exact absurd (congrArg Prod.fst heq).symm (hne spec hspec)
      · exact h.decoded spec hspec w hw
    · show ((some key :: keys fields).count _) ≤ 1
      rw [List.count_cons_of_ne (hne spec hspec)]
      exact h.once spec hspec

/-- A known field has to hold a datum and may not come again. -/
theorem fieldsFit_cons (hnodup : (specs.map FieldSpec.name).Nodup) {spec : FieldSpec}
    (hspec : spec ∈ specs) {v : Value} {fields : List (Text × Value)} :
    FieldsFit decode specs ((some spec.name, v) :: fields) ↔
      (∃ d, decode spec.kind v = .ok d) ∧ some spec.name ∉ keys fields ∧
        FieldsFit decode specs fields := by
  have hsame : ∀ other ∈ specs, some spec.name = some other.name → other = spec :=
    fun other hother heq =>
      List.inj_on_of_nodup_map hnodup hother hspec (Option.some.inj heq).symm
  constructor
  · intro h
    have honce : ((some spec.name :: keys fields).count (some spec.name)) ≤ 1 := h.once spec hspec
    rw [List.count_cons_self] at honce
    refine ⟨h.decoded spec hspec v List.mem_cons_self,
      List.count_eq_zero.mp (Nat.le_zero.mp (Nat.le_of_succ_le_succ honce)),
      fun field hfield => h.keys field ?_, fun field hfield => h.skipped field ?_,
      fun spec hspec v hv => h.decoded spec hspec v ?_, fun spec hspec => ?_⟩
    · exact List.mem_cons_of_mem _ hfield
    · exact List.mem_cons_of_mem _ hfield
    · exact List.mem_cons_of_mem _ hv
    · exact Nat.le_trans List.count_le_count_cons (h.once spec hspec)
  · rintro ⟨hv, hnew, h⟩
    refine ⟨List.forall_mem_cons.mpr ⟨rfl, h.keys⟩,
      List.forall_mem_cons.mpr ⟨fun hne => absurd rfl (hne spec hspec), h.skipped⟩,
      fun other hother w hw => ?_, fun other hother => ?_⟩
    · rcases List.mem_cons.mp hw with heq | hw
      · obtain rfl := hsame other hother (congrArg Prod.fst heq).symm
        cases heq
        exact hv
      · exact h.decoded other hother w hw
    · show ((some spec.name :: keys fields).count _) ≤ 1
      by_cases heq : some spec.name = some other.name
      · rw [← heq]
        exact Nat.le_of_eq (List.count_cons_self.trans
          (congrArg (· + 1) (List.count_eq_zero.mpr hnew)))
      · rw [List.count_cons_of_ne heq]
        exact h.once other hother

theorem held_cons {spec : FieldSpec}
    (hfind : specs.find? (fun other => other.name = spec.name) = some spec) {v : Value} {d : Datum}
    (hd : decode spec.kind v = .ok d) (fields : List (Text × Value)) :
    held decode specs ((some spec.name, v) :: fields) =
      (spec.name, d) :: held decode specs fields := by
  simp [held, hfind, hd, Except.toOption]

/-- None of the known fields was found before. -/
def Fresh (specs : List FieldSpec) (found : List (String × Datum))
    (fields : List (Text × Value)) : Prop :=
  ∀ spec ∈ specs, some spec.name ∈ keys fields → spec.name ∉ found.map Prod.fst

/-- Nothing was found in no fields. -/
theorem fresh_nil {fields : List (Text × Value)} : Fresh specs [] fields :=
  fun _ _ _ => List.not_mem_nil

/-- A field that is not known adds nothing. -/
theorem fresh_skip {key : String} (hkey : ∀ spec ∈ specs, key ≠ spec.name) {v : Value}
    {fields : List (Text × Value)} {found : List (String × Datum)} :
    Fresh specs found ((some key, v) :: fields) ↔ Fresh specs found fields := by
  constructor
  · intro h spec hspec hmem
    exact h spec hspec (List.mem_cons_of_mem _ hmem)
  · intro h spec hspec hmem
    apply h spec hspec
    apply (List.mem_cons.mp hmem).resolve_left
    intro heq
    exact hkey spec hspec (Option.some.inj heq).symm

/-- A field that is known must not have been found before. -/
theorem fresh_known {spec : FieldSpec} (hspec : spec ∈ specs) {v : Value}
    {fields : List (Text × Value)} {found : List (String × Datum)} :
    Fresh specs found ((some spec.name, v) :: fields) ↔
      spec.name ∉ found.map Prod.fst ∧ Fresh specs found fields := by
  constructor
  · intro h
    exact ⟨h spec hspec List.mem_cons_self,
      fun other hother hmem => h other hother (List.mem_cons_of_mem _ hmem)⟩
  · rintro ⟨hnew, h⟩ other hother hmem
    rcases List.mem_cons.mp hmem with heq | hmem
    · rw [Option.some.inj heq]
      exact hnew
    · exact h other hother hmem

/-- Where a field was found, it may not come again. -/
theorem fresh_found {spec : FieldSpec} (hspec : spec ∈ specs) {d : Datum}
    {fields : List (Text × Value)} {found : List (String × Datum)} :
    Fresh specs ((spec.name, d) :: found) fields ↔
      some spec.name ∉ keys fields ∧ Fresh specs found fields := by
  constructor
  · intro h
    exact ⟨fun hmem => h spec hspec hmem List.mem_cons_self,
      fun other hother hmem hfound => h other hother hmem (List.mem_cons_of_mem _ hfound)⟩
  · rintro ⟨hlater, h⟩ other hother hmem hfound
    rcases List.mem_cons.mp hfound with heq | hfound
    · rw [heq] at hmem
      exact hlater hmem
    · exact h other hother hmem hfound

/-- A field that no one knows only has to be well formed. -/
theorem collect_unknown {key : String} (hfind : specs.find? (fun spec => spec.name = key) = none)
    {v : Value} {out found : List (String × Datum)} {fields : List (Text × Value)} :
    collect decode specs found ((some key, v) :: fields) = .ok out ↔
      v.wellFormed = true ∧ collect decode specs found fields = .ok out := by
  have hskip : (∃ u, skip v = .ok u) ↔ v.wellFormed = true := by
    unfold skip
    split <;> simp_all
  rw [collect, hfind]
  dsimp only
  rw [Except.bind_eq_ok, ← hskip]
  exact exists_and_right

/-- A known field is collected unless it was collected before. -/
theorem collect_known {spec : FieldSpec}
    (hfind : specs.find? (fun other => other.name = spec.name) = some spec) {v : Value}
    {out found : List (String × Datum)} {fields : List (Text × Value)} :
    collect decode specs found ((some spec.name, v) :: fields) = .ok out ↔
      spec.name ∉ found.map Prod.fst ∧
        ∃ d, decode spec.kind v = .ok d ∧
          collect decode specs ((spec.name, d) :: found) fields = .ok out := by
  have hany : (found.any fun entry => entry.1 = spec.name) = true ↔
      spec.name ∈ found.map Prod.fst := by
    simp [List.any_eq_true]
  rw [collect, hfind]
  dsimp only
  split
  · rename_i hold
    constructor
    · intro h
      cases h
    · intro h
      exact absurd (hany.mp hold) h.1
  · rename_i hold
    rw [hany] at hold
    rw [Except.bind_eq_ok]
    exact (and_iff_right hold).symm

/-- The fields of an object are collected where they fit and none was found before. -/
theorem collect_eq_ok (hnodup : (specs.map FieldSpec.name).Nodup) {out found : List (String × Datum)}
    {fields : List (Text × Value)} : collect decode specs found fields = .ok out ↔
      FieldsFit decode specs fields ∧ Fresh specs found fields ∧
        out = found.reverse ++ held decode specs fields := by
  induction fields generalizing found with
  | nil =>
      rw [collect, held, List.filterMap_nil, List.append_nil, Except.ok.injEq]
      constructor
      · intro h
        exact ⟨fieldsFit_nil, fun _ _ hmem => absurd hmem List.not_mem_nil, h.symm⟩
      · rintro ⟨-, -, h⟩
        exact h.symm
  | cons field fields ih =>
      obtain ⟨_ | key, v⟩ := field
      · rw [collect]
        constructor
        · intro h
          cases h
        · intro h
          cases h.1.keys _ List.mem_cons_self
      cases hfind : specs.find? (fun spec => spec.name = key) with
      | none =>
          have hkey : ∀ spec ∈ specs, key ≠ spec.name := fun spec hspec heq =>
            List.find?_eq_none.mp hfind spec hspec (decide_eq_true heq.symm)
          have hheld : held decode specs ((some key, v) :: fields) = held decode specs fields := by
            simp [held, hfind]
          rw [collect_unknown hfind, fieldsFit_skip hkey, fresh_skip hkey, hheld, ih, and_assoc]
      | some spec =>
          obtain rfl : spec.name = key := by simpa using List.find?_some hfind
          have hspec := List.mem_of_find?_eq_some hfind
          have hentry (d : Datum) (rest : List (String × Datum)) :
              ((spec.name, d) :: found).reverse ++ rest =
                found.reverse ++ (spec.name, d) :: rest := by
            rw [List.reverse_cons, List.append_assoc, List.singleton_append]
          rw [collect_known hfind, fieldsFit_cons hnodup hspec, fresh_known hspec]
          constructor
          · rintro ⟨hold, d, hd, hrest⟩
            obtain ⟨hfit, hfresh, hout⟩ := ih.mp hrest
            obtain ⟨hlater, hfresh⟩ := (fresh_found hspec).mp hfresh
            refine ⟨⟨⟨d, hd⟩, hlater, hfit⟩, ⟨hold, hfresh⟩, ?_⟩
            rw [hout, held_cons hfind hd, hentry]
          · rintro ⟨⟨⟨d, hd⟩, hlater, hfit⟩, ⟨hold, hfresh⟩, hout⟩
            refine ⟨hold, d, hd, ih.mpr ⟨hfit, ?_, ?_⟩⟩
            · exact (fresh_found hspec).mpr ⟨hlater, hfresh⟩
            · rw [hout, held_cons hfind hd, hentry]

/-- What is held under a name is what the field of this name holds. -/
theorem mem_held (hnodup : (specs.map FieldSpec.name).Nodup) {spec : FieldSpec}
    (hspec : spec ∈ specs) {fields : List (Text × Value)} {d : Datum} :
    (spec.name, d) ∈ held decode specs fields ↔
      ∃ v, (some spec.name, v) ∈ fields ∧ decode spec.kind v = .ok d := by
  have hfind := find?_of_nodup hnodup spec hspec
  have hoption {v : Value} :
      (decode spec.kind v).toOption = some d ↔ decode spec.kind v = .ok d := by
    cases decode spec.kind v <;> simp [Except.toOption]
  rw [held, List.mem_filterMap]
  constructor
  · rintro ⟨⟨key, v⟩, hfield, h⟩
    simp only [bind, Option.bind_eq_some_iff, pure, Option.some.injEq, Prod.mk.injEq] at h
    obtain ⟨name, rfl, other, hother, d', hd', rfl, rfl⟩ := h
    obtain rfl := Option.some.inj (hother.symm.trans hfind)
    exact ⟨v, hfield, hoption.mp hd'⟩
  · rintro ⟨v, hfield, hd⟩
    refine ⟨_, hfield, ?_⟩
    simp only [bind, Option.bind_eq_some_iff, pure]
    exact ⟨spec.name, rfl, spec, hfind, d, hoption.mpr hd, rfl⟩

/-- What the fields of an object give for a field of the record: what is held there, or the default
where it was left out. -/
inductive FieldHolds (decode : Kind → Decoder Datum) (fields : List (Text × Value))
    (spec : FieldSpec) (d : Datum) : Prop
  | given {v : Value} (hv : (some spec.name, v) ∈ fields) (hd : decode spec.kind v = .ok d) :
      FieldHolds decode fields spec d
  | omitted (habsent : some spec.name ∉ keys fields) (hdefault : spec.default = some d) :
      FieldHolds decode fields spec d

/-- The fields that were collected are arranged where none is missing. -/
theorem arrange_eq_ok (hnodup : (specs.map FieldSpec.name).Nodup) {fields : List (Text × Value)}
    (hfit : FieldsFit decode specs fields) {ds : List Datum} :
    arrange specs (held decode specs fields) = .ok ds ↔
      List.Forall₂ (FieldHolds decode fields) specs ds := by
  rw [arrange, mapM_eq_ok]
  refine forall₂_congr fun spec hspec d => ?_
  cases hfind : (held decode specs fields).find? (fun entry => entry.1 = spec.name) with
  | none =>
      have hnone : some spec.name ∉ keys fields := by
        intro hkey
        obtain ⟨⟨_, v⟩, hv, rfl⟩ := List.mem_map.mp hkey
        obtain ⟨d, hd⟩ := hfit.decoded spec hspec v hv
        exact List.find?_eq_none.mp hfind _ ((mem_held hnodup hspec).mpr ⟨v, hv, hd⟩)
          (decide_eq_true rfl)
      rw [Option.map_none]
      refine Iff.trans (b := spec.default = some d) (by cases spec.default <;> simp) ?_
      constructor
      · exact .omitted hnone
      · rintro (⟨hv, -⟩ | ⟨-, h⟩)
        · exact absurd (List.mem_map.mpr ⟨_, hv, rfl⟩) hnone
        · exact h
  | some entry =>
      obtain ⟨name, d'⟩ := entry
      obtain rfl : name = spec.name := by simpa using List.find?_some hfind
      obtain ⟨v, hv, hd'⟩ := (mem_held hnodup hspec).mp (List.mem_of_find?_eq_some hfind)
      show Except.ok d' = .ok d ↔ _
      constructor
      · intro h
        cases h
        exact .given hv hd'
      · rintro (⟨hw, hd⟩ | ⟨habsent, -⟩)
        · obtain rfl := eq_of_count (hfit.once spec hspec) hv hw
          exact hd'.symm.trans hd
        · exact absurd (List.mem_map.mpr ⟨_, hv, rfl⟩) habsent

/-- The items of an array stand for the fields in front, and all others have a default. -/
theorem decodeItems_eq_ok : ∀ {specs : List FieldSpec} {vs : List Value} {ds : List Datum},
    decodeItems decode specs vs = .ok ds → vs.length ≤ specs.length ∧
      (∀ item ∈ specs.zip vs, ∃ d, decode item.1.kind item.2 = .ok d) ∧
      ∀ spec ∈ specs.drop vs.length, spec.default.isSome = true
  | [], [], _, _ => ⟨Nat.le_refl _, List.forall_mem_nil _, List.forall_mem_nil _⟩
  | [], _ :: _, _, h => nomatch h
  | spec :: specs, [], _, h => by
      rw [decodeItems] at h
      split at h
      · rename_i hdefault
        obtain ⟨ds, hds, -⟩ := Except.bind_eq_ok.mp h
        obtain ⟨-, -, hrest⟩ := decodeItems_eq_ok hds
        exact ⟨Nat.zero_le _, List.forall_mem_nil _,
          List.forall_mem_cons.mpr ⟨by rw [hdefault]; rfl, hrest⟩⟩
      · cases h
  | spec :: specs, v :: vs, _, h => by
      obtain ⟨d, hd, hrest⟩ := Except.bind_eq_ok.mp h
      obtain ⟨ds, hds, -⟩ := Except.bind_eq_ok.mp hrest
      obtain ⟨hlength, hitems, hdefaults⟩ := decodeItems_eq_ok hds
      exact ⟨Nat.succ_le_succ hlength, List.forall_mem_cons.mpr ⟨⟨d, hd⟩, hitems⟩, hdefaults⟩

end Fields

/-! ## Records -/

/-- The tag among the fields of an object of the family names the shape, and stands once. -/
structure Family.Tagged (family : Family) (numbered : Bool) (fields : List (Text × Value))
    (shape : Shape) : Prop where
  mem : shape ∈ family.shapes
  once : family.tagged = true → (keys fields).count (some tagKey) = 1
  names : family.tagged = true → ∀ v, (some tagKey, v) ∈ fields → family.Names numbered shape v

/-- An object is decoded where its tag and its fields are in order. -/
theorem decodeRecord_object {decode : Kind → Decoder Datum} {numbered : Bool} {family : Family}
    {fields : List (Text × Value)} {d : Datum} :
    decodeRecord decode numbered family (.object fields) = .ok d ↔
      ∃ shape ds, family.Tagged numbered fields shape ∧ FieldsFit decode shape.fields fields ∧
        List.Forall₂ (FieldHolds decode fields) shape.fields ds ∧ d = .record shape ds := by
  have hfields (shape : Shape) : (collect decode shape.fields [] fields >>= fun found =>
      arrange shape.fields found >>= fun ds => .ok (.record shape ds)) = .ok d ↔
        ∃ ds, FieldsFit decode shape.fields fields ∧
          List.Forall₂ (FieldHolds decode fields) shape.fields ds ∧ d = .record shape ds := by
    have hnodup := (List.nodup_cons.mp shape.names_fields).2
    rw [Except.bind_eq_ok]
    constructor
    · rintro ⟨found, hfound, hrest⟩
      obtain ⟨hfit, -, rfl⟩ := (collect_eq_ok hnodup).mp hfound
      obtain ⟨ds, hds, hd⟩ := Except.bind_eq_ok.mp hrest
      exact ⟨ds, hfit, (arrange_eq_ok hnodup hfit).mp hds, (Except.ok.inj hd).symm⟩
    · rintro ⟨ds, hfit, hds, rfl⟩
      exact ⟨held decode shape.fields fields, (collect_eq_ok hnodup).mpr ⟨hfit, fresh_nil, rfl⟩,
        Except.bind_eq_ok.mpr ⟨ds, (arrange_eq_ok hnodup hfit).mpr hds, rfl⟩⟩
  by_cases htagged : family.tagged = true
  · have hrecord : decodeRecord decode numbered family (.object fields) =
        (family.findTag numbered none fields >>= fun shape =>
          collect decode shape.fields [] fields >>= fun found =>
            arrange shape.fields found >>= fun ds => .ok (.record shape ds)) := by
      cases family with
      | only => cases htagged
      | command | typeExpr | accessor | expr => rfl
    rw [hrecord, Except.bind_eq_ok]
    refine exists_congr fun shape => ?_
    rw [findTag_none, hfields shape, ← exists_and_left]
    refine exists_congr fun ds => and_congr_left fun _ => ?_
    constructor
    · rintro ⟨hcount, hnames⟩
      have hnames' : ∀ v, (some tagKey, v) ∈ fields → family.Names numbered shape v :=
        fun v hv => (Family.ofTag_eq_ok htagged).mp (hnames v hv)
      obtain ⟨⟨_, v⟩, hv, rfl⟩ := List.mem_map.mp
        (List.count_pos_iff.mp (Nat.lt_of_lt_of_eq Nat.one_pos hcount.symm))
      exact ⟨(hnames' v hv).mem, fun _ => hcount, fun _ => hnames'⟩
    · rintro ⟨-, hcount, hnames⟩
      exact ⟨hcount htagged, fun v hv =>
        (Family.ofTag_eq_ok htagged).mpr (hnames htagged v hv)⟩
  · cases family with
    | only other =>
        refine (hfields other).trans ⟨fun ⟨ds, h⟩ => ⟨other, ds, ⟨List.mem_singleton.mpr rfl,
          fun h => absurd h htagged, fun h => absurd h htagged⟩, h⟩, ?_⟩
        rintro ⟨shape, ds, hshape, h⟩
        obtain rfl := List.mem_singleton.mp hshape.mem
        exact ⟨ds, h⟩
    | command | typeExpr | accessor | expr => exact absurd rfl htagged

/-- An array of the family holds the items of the shape, behind a tag that names it if the family
has tags. -/
inductive Family.Heads (family : Family) (numbered : Bool) (shape : Shape) :
    List Value → List Value → Prop
  | only {items : List Value} (h : family = .only shape) : Heads family numbered shape items items
  | tagged {tag : Value} {items : List Value} (htagged : family.tagged = true)
      (hnames : family.Names numbered shape tag) :
      Heads family numbered shape (tag :: items) items

/-- An array is decoded where its tag and its items are in order. -/
theorem decodeRecord_array {decode : Kind → Decoder Datum} {numbered : Bool} {family : Family}
    {items : List Value} {d : Datum} :
    decodeRecord decode numbered family (.array items) = .ok d ↔
      ∃ shape rest ds, family.Heads numbered shape items rest ∧
        decodeItems decode shape.fields rest = .ok ds ∧ d = .record shape ds := by
  have hitems (shape : Shape) (rest : List Value) : (decodeItems decode shape.fields rest >>=
      fun ds => .ok (.record shape ds)) = .ok d ↔
        ∃ ds, decodeItems decode shape.fields rest = .ok ds ∧ d = .record shape ds := by
    rw [Except.bind_eq_ok]
    exact exists_congr fun ds => and_congr_right fun _ => ⟨fun h => (Except.ok.inj h).symm,
      fun h => congrArg Except.ok h.symm⟩
  by_cases htagged : family.tagged = true
  · cases items with
    | nil =>
        have hrecord : decodeRecord decode numbered family (.array []) = .error .missingTag := by
          cases family with
          | only => cases htagged
          | command | typeExpr | accessor | expr => rfl
        rw [hrecord]
        refine ⟨nofun, ?_⟩
        rintro ⟨shape, rest, ds, hheads, -⟩
        cases hheads with
        | only h =>
            subst h
            cases htagged
    | cons tag items =>
        have hrecord : decodeRecord decode numbered family (.array (tag :: items)) =
            (family.ofTag numbered tag >>= fun shape =>
              decodeItems decode shape.fields items >>= fun ds => .ok (.record shape ds)) := by
          cases family with
          | only => cases htagged
          | command | typeExpr | accessor | expr => rfl
        rw [hrecord, Except.bind_eq_ok]
        refine exists_congr fun shape => ?_
        rw [Family.ofTag_eq_ok htagged, hitems shape items]
        constructor
        · rintro ⟨hnames, ds, h⟩
          exact ⟨items, ds, .tagged htagged hnames, h⟩
        · rintro ⟨rest, ds, hheads, h⟩
          cases hheads with
          | only honly =>
              subst honly
              cases htagged
          | tagged _ hnames => exact ⟨hnames, ds, h⟩
  · -- without a tag all items are fields
    cases family with
    | only other =>
        refine (hitems other items).trans ⟨fun ⟨ds, h⟩ => ⟨other, items, ds, .only rfl, h⟩, ?_⟩
        rintro ⟨shape, rest, ds, hheads, h⟩
        cases hheads with
        | only heq =>
            cases heq
            exact ⟨ds, h⟩
        | tagged h => exact absurd h htagged
    | command | typeExpr | accessor | expr => exact absurd rfl htagged

/-- What stands for a record is an object or an array. -/
theorem decodeRecord_eq_ok {decode : Kind → Decoder Datum} {numbered : Bool} {family : Family}
    {v : Value} {d : Datum} (h : decodeRecord decode numbered family v = .ok d) :
    (∃ fields, v = .object fields) ∨ ∃ items, v = .array items := by
  cases v with
  | object fields => exact Or.inl ⟨fields, rfl⟩
  | array items => exact Or.inr ⟨items, rfl⟩
  | null | bool | number | string | malformed => cases h

/-- In place of a record that is given, one of its family is decoded. -/
theorem decodeKind_record {family : Family} {kind : Kind}
    (hkind : kind = .record family ∨ kind = .optional family) {v : Value} (hv : v ≠ .null)
    (levels : Nat) (checked : Bool) : decodeKind (levels + 1) checked kind v =
      decodeFamily (decodeKind levels) levels checked family v := by
  rcases hkind with rfl | rfl
  · rfl
  · cases v <;> first | rfl | exact absurd rfl hv

end ByteJump.Syntax
