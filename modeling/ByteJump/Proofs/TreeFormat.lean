import ByteJump.Proofs.Json.Spelling
import ByteJump.Proofs.Syntax.Flaws
import ByteJump.Proofs.Syntax.Spelling
import ByteJump.Proofs.TreeRoundTrip

set_option autoImplicit false

/-!
# The texts of trees

Every part of a syntax tree has many texts, and reading gives the part back from each of them that
nests within the limit.  A text is refused if anything in its document is flawed, or if anything but
white space stands behind its document.

What counts as a tag depends on the place.  Inside a tagged record, which is checked as a whole
before it is read, the number of a shape in its family names the shape as well as its tag does.
-/

namespace ByteJump.Syntax

open Json

variable {α : Type} [Portable α]

/-- The text is one of the part: it is that of some document of its datum. -/
def TextOf (a : α) (v : Value) (text : String) : Prop :=
  (Portable.toDatum a).Spelled (Portable.kind α) v ∧ v.SpelledIn text

/-- The texts of a sort of parts are read as the format asks. -/
structure ReadsFormat (α : Type) [Portable α] : Prop where
  /-- the text that is written for a part is one of its texts -/
  written (a : α) : TextOf a (toJson a) (toText a)
  /-- a text of a part that nests within the limit is read to the part -/
  accepted (a : α) (v : Value) (text : String) :
    TextOf a v text → v.depth ≤ depthLimit → fromText text = .ok a
  /-- a text with a flaw anywhere is refused -/
  flawed (text : String) (q : Place) :
    Place.Inside ⟨false, Portable.kind α, (Json.read text).value⟩ q → q.Flaw →
      ∃ fault, (fromText text : Except DecodeFault α) = .error fault
  /-- a text with more than white space behind its document is refused -/
  trailing (front back : String) (v : Value) :
    Json.read front = ⟨v, false⟩ → v.wellFormed = true → ¬Blank back.toList →
      ∃ fault, (fromText (front ++ back) : Except DecodeFault α) = .error fault

/-- Texts that are not decoded are refused. -/
theorem fromText_error {text : String}
    (h : ∃ fault, decodeText (Portable.kind α) text = .error fault) :
    ∃ fault, (fromText text : Except DecodeFault α) = .error fault := by
  obtain ⟨fault, hfault⟩ := h
  exact ⟨fault, by rw [fromText, hfault]; rfl⟩

/-- Sorts whose parts are records or lists of their kind, and are read back from their data, are
read as the format asks. -/
theorem readsFormat_of {family : Family}
    (hkind : Portable.kind α = .record family ∨ Portable.kind α = .list family)
    (hof : ∀ a : α, Datum.Of (Portable.kind α) (Portable.toDatum a))
    (hback : ∀ a : α, Portable.ofDatum? (Portable.toDatum a) = some a) : ReadsFormat α where
  written a := by
    have hexact : (toJson a).Exact :=
      .of_isPlain (Datum.isPlain_encode (Portable.toDatum a))
    exact ⟨Datum.spelled_encode _ _ (hof a), hexact.spelledIn_print⟩
  accepted a v text h hdepth := by
    obtain ⟨hspelled, htext⟩ := h
    have hfit : v.strictWithin depthLimit = true := (Value.Exact.fit htext.isExact).2 _ hdepth
    have hdecode : decodeText (Portable.kind α) text = .ok (Portable.toDatum a) := by
      rw [decodeText, read_spelled htext]
      exact Except.bind_eq_ok.mpr ⟨_, decodeKind_spelled hspelled depthLimit false hfit, rfl⟩
    rw [fromText, hdecode]
    show ofDatum (Portable.toDatum a) = _
    rw [ofDatum, hback a]
  flawed _ _ hinside hflaw := fromText_error (decodeText_flaw hinside hflaw)
  trailing _ _ _ hread hv hback := fromText_error (decodeText_append hkind hread hv hback)

/-- The texts of programs, statements, expressions, types and locations are read as the format
asks. -/
theorem trees_readFormat :
    ReadsFormat Program ∧ ReadsFormat Stmt ∧ ReadsFormat Expr ∧ ReadsFormat TypeExpr ∧
      ReadsFormat Span :=
  ⟨readsFormat_of (Or.inr rfl) Stmt.of_toData Stmt.ofData?_toData,
    readsFormat_of (Or.inl rfl) Stmt.of_toDatum Stmt.ofDatum?_toDatum,
    readsFormat_of (Or.inl rfl) Expr.of_toDatum Expr.ofDatum?_toDatum,
    readsFormat_of (Or.inl rfl) TypeExpr.of_toDatum TypeExpr.ofDatum?_toDatum,
    readsFormat_of (Or.inl rfl) Span.of_toDatum Span.ofDatum?_toDatum⟩

/-- Inside a tagged record a tag need not be a name, nor an operator a string: here the operator is
an object, and its operand is tagged with the number of the integer literals among the
expressions. -/
theorem tagNumber_signObject_read :
    let text := "[\"unary\", \x7b\"-\": null\x7d, \x7b\"value\": 9, \"type\": 2\x7d]"
    let root : Place := ⟨false, .record .expr, (Json.read text).value⟩
    (∃ fields, root.Inside ⟨true, .record .expr, .object fields⟩ ∧
      (some tagKey, .ofUInt64 2) ∈ fields ∧
        ∀ shape, ¬Family.expr.Names false shape (.ofUInt64 2)) ∧
    (∃ fields, root.Inside ⟨true, .unaryOp, .object fields⟩) ∧
    (fromText text : Except DecodeFault Expr) =
      .ok (.unary .negate (.int 9 ⟨⟨0, 0⟩, ⟨0, 0⟩⟩) ⟨⟨0, 0⟩, ⟨0, 0⟩⟩) := by
  intro text root
  have htokens : Json.tokens text = [.openArray, .string (some "unary"), .comma, .openObject,
      .string (some "-"), .colon, .null, .closeObject, .comma, .openObject, .string (some "value"),
      .colon, .number (.natural 9), .comma, .string (some "type"), .colon, .number (.natural 2),
      .closeObject, .closeArray] := by
    decide +kernel
  have hread : (Json.read text).value = .array [.ofString "unary", .object [(some "-", .null)],
      .object [(some "value", .ofUInt64 9), (some "type", .ofUInt64 2)]] := by
    rw [Json.read, htokens]
    rfl
  have hroot : root = _ := congrArg (Place.mk false (.record .expr)) hread
  have hdecode : decodeText (Portable.kind Expr) text =
      .ok (Expr.toDatum (.unary .negate (.int 9 ⟨⟨0, 0⟩, ⟨0, 0⟩⟩) ⟨⟨0, 0⟩, ⟨0, 0⟩⟩)) := by
    decide +kernel
  have hunary : Family.expr.Names false .unary (.ofString "unary") := .name (by decide) rfl
  have hpart {spec : FieldSpec} {v : Value} (hv : (spec, v) ∈ Shape.unary.fields.zip
      [.object [(some "-", .null)],
        .object [(some "value", .ofUInt64 9), (some "type", .ofUInt64 2)]]) :
      root.Inside ⟨true, spec.kind, v⟩ := by
    rw [hroot]
    exact .single (.element (Or.inl rfl) (.tagged rfl hunary) hv)
  refine ⟨⟨_, hpart (List.mem_cons_of_mem _ List.mem_cons_self), ?_, ?_⟩,
    ⟨_, hpart List.mem_cons_self⟩, ?_⟩
  · exact List.mem_cons_of_mem _ List.mem_cons_self
  · intro shape h
    cases h with
    | number hnumbered => cases hnumbered
  · rw [fromText, hdecode]
    rfl

end ByteJump.Syntax
