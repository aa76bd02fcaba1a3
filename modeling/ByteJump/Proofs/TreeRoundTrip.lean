import ByteJump.Proofs.Syntax.Decoding
import ByteJump.Syntax.Format

set_option autoImplicit false

/-!
# Trees read back from their text

Every part of a syntax tree is read back from the text it is written to, as long as that text nests
arrays and objects no deeper than the limit; where it nests deeper, reading fails.

A part of a tree is written in two steps, to a datum and from there to text, and read back in the
same two steps.  For the first one there are two facts about each part: its datum is read back to
it, `ofDatum?_toDatum`, and it is of the kind that the reader of its family expects, `of_toDatum`.
Both go along the constructors of the tree, and both are mutual where the tree is.  The second
step is the general fact on data of a kind, and `roundTrips_of` joins them for any part that has
the two.
-/

namespace ByteJump

open Syntax

/-! ## Data of trees

Records without alternatives are read back by computation.  Lists of them need an induction, which
`mapM_map` and `allOf_map` make once for all element types. -/

theorem Position.of_toDatum (p : Position) : Datum.Of (.record (.only .position)) p.toDatum :=
  ⟨List.mem_singleton.mpr rfl, trivial, trivial, trivial⟩

@[simp]
theorem Span.ofDatum?_toDatum (s : Span) : Span.ofDatum? s.toDatum = some s := rfl

theorem Span.of_toDatum (s : Span) : Datum.Of (.record (.only .span)) s.toDatum :=
  ⟨List.mem_singleton.mpr rfl, s.start.of_toDatum, s.stop.of_toDatum, trivial⟩

namespace Syntax

theorem Name.ofDatum?_toDatum (n : Name) : Name.ofDatum? n.toDatum = some n := rfl

theorem Name.of_toDatum (n : Name) : Datum.Of (.record (.only .name)) n.toDatum :=
  ⟨List.mem_singleton.mpr rfl, trivial, n.span.of_toDatum, trivial⟩

@[simp]
theorem LabelDecl.ofDatum?_toDatum (l : LabelDecl) : LabelDecl.ofDatum? l.toDatum = some l := rfl

theorem LabelDecl.of_toDatum (l : LabelDecl) : Datum.Of (.record (.only .label)) l.toDatum :=
  ⟨List.mem_singleton.mpr rfl, trivial, trivial, l.span.of_toDatum, trivial⟩

/-- Parts that are read back one by one are read back together. -/
theorem mapM_map {α : Type} {toDatum : α → Datum} {ofDatum? : Datum → Option α}
    (h : ∀ a, ofDatum? (toDatum a) = some a) :
    ∀ as : List α, (as.map toDatum).mapM ofDatum? = some as
  | [] => rfl
  | a :: as => by
      rw [List.map_cons, List.mapM_cons, h a, mapM_map h as]
      rfl

theorem allOf_map {α : Type} {toDatum : α → Datum} {kind : Kind}
    (h : ∀ a, Datum.Of kind (toDatum a)) : ∀ as : List α, Datum.AllOf kind (as.map toDatum)
  | [] => trivial
  | a :: as => ⟨h a, allOf_map h as⟩

/-- A list of declarations is read back element by element. -/
@[simp]
theorem LabelDecl.ofList?_map (ls : List LabelDecl) :
    LabelDecl.ofList? (.list (ls.map LabelDecl.toDatum)) = some ls :=
  mapM_map LabelDecl.ofDatum?_toDatum ls

theorem LabelDecl.of_list (ls : List LabelDecl) :
    Datum.Of (.list (.only .label)) (.list (ls.map LabelDecl.toDatum)) :=
  allOf_map LabelDecl.of_toDatum ls

/-! ## Expressions

Types, accessors and expressions are built from one another, so their facts are proved together,
in the recursion of the three. -/

mutual

theorem TypeExpr.ofDatum?_toDatum : ∀ t : TypeExpr, TypeExpr.ofDatum? t.toDatum = some t
  | .named name span => rfl
  | .array inner size span => by
      simp [TypeExpr.toDatum, TypeExpr.ofDatum?, TypeExpr.ofDatum?_toDatum inner,
        Expr.ofDatum?_toDatum size]

theorem Accessor.ofDatum?_toDatum : ∀ a : Accessor, Accessor.ofDatum? a.toDatum = some a
  | .call arguments => by
      simp [Accessor.toDatum, Accessor.ofDatum?, Expr.ofData?_toData arguments]
  | .index index => by
      simp [Accessor.toDatum, Accessor.ofDatum?, Expr.ofDatum?_toDatum index]

theorem Accessor.ofData?_toData : ∀ as : List Accessor,
    Accessor.ofData? (Accessor.toData as) = some as
  | [] => rfl
  | a :: as => by
      simp [Accessor.toData, Accessor.ofData?, Accessor.ofDatum?_toDatum a,
        Accessor.ofData?_toData as]

/-- One case for each kind of expression: the record has a name that no other kind has, and its
parts are read back by induction. -/
theorem Expr.ofDatum?_toDatum : ∀ e : Expr, Expr.ofDatum? e.toDatum = some e
  | .cast operand target span => by
      simp [Expr.toDatum, Expr.ofDatum?, Expr.ofDatum?_toDatum operand,
        TypeExpr.ofDatum?_toDatum target]
  | .access base accessors span => by
      simp [Expr.toDatum, Expr.ofDatum?, Expr.ofDatum?_toDatum base,
        Accessor.ofData?_toData accessors]
  | .int _ _ | .str _ _ | .variable _ _ | .label _ _ => rfl
  | .unary op operand span => by
      simp [Expr.toDatum, Expr.ofDatum?, Expr.ofDatum?_toDatum operand]
  | .binary op left right span => by
      simp [Expr.toDatum, Expr.ofDatum?, Expr.ofDatum?_toDatum left, Expr.ofDatum?_toDatum right]

theorem Expr.ofData?_toData : ∀ es : List Expr, Expr.ofData? (Expr.toData es) = some es
  | [] => rfl
  | e :: es => by
      simp [Expr.toData, Expr.ofData?, Expr.ofDatum?_toDatum e, Expr.ofData?_toData es]

end

mutual

theorem TypeExpr.of_toDatum : ∀ t : TypeExpr, Datum.Of (.record .typeExpr) t.toDatum
  | .named name span => ⟨by decide, trivial, span.of_toDatum, trivial⟩
  | .array inner size span =>
      ⟨by decide, TypeExpr.of_toDatum inner, Expr.of_toDatum size, span.of_toDatum, trivial⟩

theorem Accessor.of_toDatum : ∀ a : Accessor, Datum.Of (.record .accessor) a.toDatum
  | .call arguments => ⟨by decide, Expr.of_toData arguments, trivial⟩
  | .index index => ⟨by decide, Expr.of_toDatum index, trivial⟩

theorem Accessor.of_toData : ∀ as : List Accessor,
    Datum.AllOf (.record .accessor) (Accessor.toData as)
  | [] => trivial
  | a :: as => ⟨Accessor.of_toDatum a, Accessor.of_toData as⟩

/-- Each record has the fields of its kind, in their order, and each field holds a datum of the
kind it should. -/
theorem Expr.of_toDatum : ∀ e : Expr, Datum.Of (.record .expr) e.toDatum
  | .cast operand target span =>
      ⟨by decide, Expr.of_toDatum operand, TypeExpr.of_toDatum target, span.of_toDatum, trivial⟩
  | .access base accessors span =>
      ⟨by decide, Expr.of_toDatum base, Accessor.of_toData accessors, span.of_toDatum, trivial⟩
  | .int _ span | .str _ span | .variable _ span | .label _ span =>
      ⟨by decide, trivial, span.of_toDatum, trivial⟩
  | .unary op operand span =>
      ⟨by decide, trivial, Expr.of_toDatum operand, span.of_toDatum, trivial⟩
  | .binary op left right span =>
      ⟨by decide, trivial, Expr.of_toDatum left, Expr.of_toDatum right, span.of_toDatum, trivial⟩

theorem Expr.of_toData : ∀ es : List Expr, Datum.AllOf (.record .expr) (Expr.toData es)
  | [] => trivial
  | e :: es => ⟨Expr.of_toDatum e, Expr.of_toData es⟩

end

/-! ## Statements

A part that may be absent is written as a datum of its own for absence, which is the datum of no
tree.  That is what makes the reading of optional parts unique. -/

theorem Field.ofDatum?_toDatum (f : Field) : Field.ofDatum? f.toDatum = some f := by
  simp [Field.toDatum, Field.ofDatum?, TypeExpr.ofDatum?_toDatum]

theorem Field.of_toDatum (f : Field) : Datum.Of (.record (.only .field)) f.toDatum :=
  ⟨List.mem_singleton.mpr rfl, trivial, f.type.of_toDatum, f.span.of_toDatum, trivial⟩

/-- A part that may be absent is read back if no part has the datum of an absent one. -/
theorem ofOptional?_optionalDatum {α : Type} {toDatum : α → Datum} {ofDatum? : Datum → Option α}
    (h : ∀ a, ofDatum? (toDatum a) = some a) (habsent : ∀ a, toDatum a ≠ .absent) (a : Option α) :
    ofOptional? ofDatum? (optionalDatum toDatum a) = some a := by
  cases a with
  | none => rfl
  | some a =>
      rw [optionalDatum, ofOptional?, h a]
      · rfl
      · exact habsent a

theorem of_optionalDatum {α : Type} {toDatum : α → Datum} {family : Family}
    (h : ∀ a, Datum.Of (.record family) (toDatum a)) (a : Option α) :
    Datum.Of (.optional family) (optionalDatum toDatum a) := by
  cases a with
  | none => trivial
  | some a =>
      have hof := h a
      rw [optionalDatum]
      cases htoDatum : toDatum a <;> rw [htoDatum] at hof <;> first | exact hof | exact hof.elim

/-- A type is written to a record. -/
theorem TypeExpr.toDatum_ne_absent (t : TypeExpr) : t.toDatum ≠ .absent := by
  cases t <;> exact nofun

/-- An expression is written to a record. -/
theorem Expr.toDatum_ne_absent (e : Expr) : e.toDatum ≠ .absent := by
  cases e <;> exact nofun

mutual

theorem Stmt.ofDatum?_toDatum : ∀ st : Stmt, Stmt.ofDatum? st.toDatum = some st
  | .mk labels command span => by
      simp [Stmt.toDatum, Stmt.ofDatum?, Command.ofDatum?_toDatum command]

theorem Stmt.ofData?_toData : ∀ ss : List Stmt, Stmt.ofData? (Stmt.toData ss) = some ss
  | [] => rfl
  | st :: ss => by
      simp [Stmt.toData, Stmt.ofData?, Stmt.ofDatum?_toDatum st, Stmt.ofData?_toData ss]

/-- One case for each command; those with statements inside use the induction. -/
theorem Command.ofDatum?_toDatum : ∀ c : Command, Command.ofDatum? c.toDatum = some c
  | .importFile file => rfl
  | .evaluate value => by
      simp [Command.toDatum, Command.ofDatum?, Expr.ofDatum?_toDatum]
  | .goto target labels => by
      simp [Command.toDatum, Command.ofDatum?, Expr.ofDatum?_toDatum]
  | .define name value => by
      simp [Command.toDatum, Command.ofDatum?, name.ofDatum?_toDatum, Expr.ofDatum?_toDatum]
  | .defineArray name size element => by
      simp [Command.toDatum, Command.ofDatum?, name.ofDatum?_toDatum, Expr.ofDatum?_toDatum,
        ofOptional?_optionalDatum TypeExpr.ofDatum?_toDatum TypeExpr.toDatum_ne_absent]
  | .assign target value => by
      simp [Command.toDatum, Command.ofDatum?, Expr.ofDatum?_toDatum]
  | .block body => by
      simp [Command.toDatum, Command.ofDatum?, Stmt.ofData?_toData body]
  | .branch condition taken none => by
      simp [Command.toDatum, Command.ofDatum?, Stmt.optionDatum, Expr.ofDatum?_toDatum,
        Stmt.ofDatum?_toDatum taken]
  | .branch condition taken (some (.mk labels command span)) => by
      have hother := Stmt.ofDatum?_toDatum (.mk labels command span)
      rw [Stmt.toDatum] at hother
      simp [Command.toDatum, Command.ofDatum?, Stmt.optionDatum, Stmt.toDatum,
        Expr.ofDatum?_toDatum, Stmt.ofDatum?_toDatum taken, hother]
  | .loop condition body bodyFirst => by
      simp [Command.toDatum, Command.ofDatum?, Expr.ofDatum?_toDatum, Stmt.ofDatum?_toDatum body]
  | .struct name fields => by
      simp [Command.toDatum, Command.ofDatum?, name.ofDatum?_toDatum,
        mapM_map Field.ofDatum?_toDatum]
  | .words values => by
      simp [Command.toDatum, Command.ofDatum?, Expr.ofData?_toData]
  | .pragma name value => by
      simp [Command.toDatum, Command.ofDatum?, name.ofDatum?_toDatum,
        ofOptional?_optionalDatum Expr.ofDatum?_toDatum Expr.toDatum_ne_absent]

end

mutual

theorem Stmt.of_toDatum : ∀ st : Stmt, Datum.Of (.record (.only .stmt)) st.toDatum
  | .mk labels command span =>
      ⟨List.mem_singleton.mpr rfl, LabelDecl.of_list labels, Command.of_toDatum command,
        span.of_toDatum, trivial⟩

theorem Stmt.of_toData : ∀ ss : List Stmt, Datum.AllOf (.record (.only .stmt)) (Stmt.toData ss)
  | [] => trivial
  | st :: ss => ⟨Stmt.of_toDatum st, Stmt.of_toData ss⟩

/-- Each command is a record of its kind. -/
theorem Command.of_toDatum : ∀ c : Command, Datum.Of (.record .command) c.toDatum
  | .importFile file => ⟨by decide, file.of_toDatum, trivial⟩
  | .evaluate value => ⟨by decide, value.of_toDatum, trivial⟩
  | .goto target labels => ⟨by decide, target.of_toDatum, LabelDecl.of_list labels, trivial⟩
  | .define name value => ⟨by decide, name.of_toDatum, value.of_toDatum, trivial⟩
  | .defineArray name size element =>
      ⟨by decide, name.of_toDatum, size.of_toDatum, of_optionalDatum TypeExpr.of_toDatum element,
        trivial⟩
  | .assign target value => ⟨by decide, target.of_toDatum, value.of_toDatum, trivial⟩
  | .block body => ⟨by decide, Stmt.of_toData body, trivial⟩
  | .branch condition taken none =>
      ⟨by decide, condition.of_toDatum, Stmt.of_toDatum taken, trivial, trivial⟩
  | .branch condition taken (some other) =>
      ⟨by decide, condition.of_toDatum, Stmt.of_toDatum taken,
        of_optionalDatum (fun _ : Unit => Stmt.of_toDatum other) (some ()), trivial⟩
  | .loop condition body bodyFirst =>
      ⟨by decide, condition.of_toDatum, Stmt.of_toDatum body, trivial, trivial⟩
  | .struct name fields =>
      ⟨by decide, name.of_toDatum, allOf_map Field.of_toDatum fields, trivial⟩
  | .words values => ⟨by decide, Expr.of_toData values, trivial⟩
  | .pragma name value =>
      ⟨by decide, name.of_toDatum, of_optionalDatum Expr.of_toDatum value, trivial⟩

end

/-! ## Texts -/

/-- Every part of a sort is read back from its text exactly if the document of the part nests within
the limit, and reading fails if it does not.  So a part that was read from any text is written to
one that gives it back exactly if the latter nests within the limit. -/
def RoundTrips (α : Type) [Portable α] : Prop :=
  (∀ a : α, ((toJson a).depth ≤ depthLimit → fromText (toText a) = .ok a) ∧
    (depthLimit < (toJson a).depth →
      ∃ fault, (fromText (toText a) : Except DecodeFault α) = .error fault)) ∧
  ∀ text (a : α), fromText text = .ok a →
    (fromText (toText a) = .ok a ↔ (toJson a).depth ≤ depthLimit)

/-- Parts whose data are of their kind and are read back make the round trip. -/
theorem roundTrips_of {α : Type} [Portable α]
    (hof : ∀ a : α, Datum.Of (Portable.kind α) (Portable.toDatum a))
    (hback : ∀ a : α, Portable.ofDatum? (Portable.toDatum a) = some a) : RoundTrips α := by
  have hall : ∀ a : α, ((toJson a).depth ≤ depthLimit → fromText (toText a) = .ok a) ∧
      (depthLimit < (toJson a).depth →
        ∃ fault, (fromText (toText a) : Except DecodeFault α) = .error fault) := by
    intro a
    obtain ⟨hok, hfails⟩ := decodeText_encode (hof a)
    have htext : (fromText (toText a) : Except DecodeFault α) =
        (decodeText (Portable.kind α) (Portable.toDatum a).encode.print >>= ofDatum) := rfl
    rw [htext]
    constructor
    · intro hdepth
      rw [hok hdepth]
      show ofDatum (Portable.toDatum a) = _
      rw [ofDatum, hback a]
    · intro hdeep
      obtain ⟨fault, hfault⟩ := hfails hdeep
      exact ⟨fault, by rw [hfault]; rfl⟩
  refine ⟨hall, fun text a _ => ⟨fun hread => ?_, (hall a).1⟩⟩
  rcases Nat.lt_or_ge depthLimit (toJson a).depth with hdeep | hdepth
  · obtain ⟨fault, hfault⟩ := (hall a).2 hdeep
    rw [hread] at hfault
    cases hfault
  · exact hdepth

/-- Programs, statements, expressions, types and locations make the round trip through their texts
exactly as long as these nest within the limit. -/
theorem trees_roundTrip :
    RoundTrips Program ∧ RoundTrips Stmt ∧ RoundTrips Expr ∧ RoundTrips TypeExpr ∧
      RoundTrips Span :=
  ⟨roundTrips_of Stmt.of_toData Stmt.ofData?_toData,
    roundTrips_of Stmt.of_toDatum Stmt.ofDatum?_toDatum,
    roundTrips_of Expr.of_toDatum Expr.ofDatum?_toDatum,
    roundTrips_of TypeExpr.of_toDatum TypeExpr.ofDatum?_toDatum,
    roundTrips_of Span.of_toDatum Span.ofDatum?_toDatum⟩

end Syntax

end ByteJump
