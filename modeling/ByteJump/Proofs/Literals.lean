import ByteJump.Proofs.Decimals
import ByteJump.Proofs.Json.Numerals
import ByteJump.Proofs.Syntax.Flaws
import ByteJump.Proofs.TreeRoundTrip

set_option autoImplicit false

/-!
# Integer literals

What stands in place of an integer literal comes to a number or is refused, and this says which, for
every document.  A record of a literal has a gap where its value stands: with whatever is put there
the record comes to the literal of that number or is refused in the same way, wherever it stands.

`LiteralReads` is the specification: one rule for each form of a document that comes to a number,
and one for each reason to refuse it, with the message.  `literalReads_iff` says that the decoder
follows it, for every document.  `LiteralGap` then describes all places of a record where the
value of a literal may stand: in an object among other fields in any order, or in an array behind
the tag; `decodeRecord_gap` pushes a value through the decoding of the record around it.  With the
texts of numbers from the lexer this gives the same for texts of expressions. -/

-- powers of natural numbers are the built-in ones
attribute [local instance (high)] instPowNat

namespace ByteJump.Syntax

open Json Text

/-! ## What a document comes to

A string is a decimal below the bound, a number is a natural one, and everything else is refused
as being of the wrong type. -/

/-- The wording of the refusal of a text. -/
def invalidLiteral (text why : String) : String := "invalid literal `" ++ text ++ "`: " ++ why

/-- What a document comes to in place of an integer literal: the number, or the wording of the
refusal if it has one. -/
inductive LiteralReads : Value → Except (Option String) Word128 → Prop
  | integer (n : UInt64) : LiteralReads (.number (.natural n)) (.ok (BitVec.ofNat 128 n.toNat))
  | decimal {s : String} {w : Word128} (h : Decimal s.toList w.toNat) :
      LiteralReads (.string (some s)) (.ok w)
  | negative (m : Nat) :
      LiteralReads (.number (.negative m)) (.error (some ("negative literal -" ++ toString m)))
  | empty :
      LiteralReads (.string (some ""))
        (.error (some (invalidLiteral "" "cannot parse integer from empty string")))
  | tooLarge {s : String} {front rest : List Char} {n : Nat} (hs : s.toList = front ++ rest)
      (hfront : Decimal front n) (hn : 2 ^ (128 : Nat) ≤ n) :
      LiteralReads (.string (some s))
        (.error (some (invalidLiteral s "number too large to fit in target type")))
  /-- neither is the text a decimal nor does one that is too large stand in front -/
  | invalidDigit {s : String} (hne : s ≠ "") (hnone : ∀ n, ¬Decimal s.toList n)
      (hfits : ∀ front rest n, s.toList = front ++ rest → Decimal front n → n < 2 ^ (128 : Nat)) :
      LiteralReads (.string (some s))
        (.error (some (invalidLiteral s "invalid digit found in string")))
  /-- a number of another kind, a string that is not made of characters, or no number and no
  string -/
  | other {v : Value} (hnatural : ∀ n, v ≠ .number (.natural n))
      (hnegative : ∀ m, v ≠ .number (.negative m)) (hstring : ∀ s, v ≠ .string (some s)) :
      LiteralReads v (.error none)

/-- The literal of a document, or the wording of the fault. -/
def literalOutcome (v : Value) : Except (Option String) Word128 :=
  (decodeLiteral v).mapError LiteralFault.message?

/-- The outcome is a number if the document is decoded to it. -/
theorem literalOutcome_ok {v : Value} {w : Word128} :
    literalOutcome v = .ok w ↔ decodeLiteral v = .ok w := by
  unfold literalOutcome
  cases decodeLiteral v with
  | ok w' => exact ⟨fun h => congrArg Except.ok (Except.ok.inj h),
      fun h => congrArg Except.ok (Except.ok.inj h)⟩
  | error fault => exact ⟨nofun, nofun⟩

/-- The outcome is a message if the fault has it. -/
theorem literalOutcome_error {v : Value} {message : Option String} :
    literalOutcome v = .error message ↔
      ∃ fault, decodeLiteral v = .error fault ∧ fault.message? = message := by
  unfold literalOutcome
  cases decodeLiteral v with
  | ok w => exact ⟨nofun, fun ⟨_, h, _⟩ => nomatch h⟩
  | error fault =>
      refine ⟨fun h => ⟨fault, rfl, Except.error.inj h⟩, ?_⟩
      rintro ⟨_, hfault, rfl⟩
      cases hfault
      rfl

theorem decodeLiteral_string_ok {s : String} {n : Nat}
    (h : decimalBelow (2 ^ (128 : Nat)) s.toList = .ok n) :
    decodeLiteral (.string (some s)) = .ok (BitVec.ofNat 128 n) := by
  simp only [decodeLiteral, h]

theorem decodeLiteral_string_error {s : String} {reason : DecimalFault}
    (h : decimalBelow (2 ^ (128 : Nat)) s.toList = .error reason) :
    decodeLiteral (.string (some s)) = .error (.invalid s reason) := by
  simp only [decodeLiteral, h]

/-- A string is refused with a reason of its own. -/
theorem literalOutcome_refused {s : String} {reason : DecimalFault}
    (h : decimalBelow (2 ^ (128 : Nat)) s.toList = .error reason) :
    literalOutcome (.string (some s)) = .error (some (invalidLiteral s reason.message)) :=
  literalOutcome_error.mpr ⟨_, decodeLiteral_string_error h, rfl⟩

/-- Neither a number of the right kind nor a string. -/
theorem decodeLiteral_other {v : Value} (hnatural : ∀ n, v ≠ .number (.natural n))
    (hnegative : ∀ m, v ≠ .number (.negative m)) (hstring : ∀ s, v ≠ .string (some s)) :
    decodeLiteral v = .error .wrongKind := by
  unfold decodeLiteral
  split
  · exact absurd rfl (hnatural _)
  · exact absurd rfl (hnegative _)
  · exact absurd rfl (hstring _)
  · rfl

/-- Every document comes to what it comes to, and to nothing else. -/
theorem literalReads_iff {v : Value} {outcome : Except (Option String) Word128} :
    LiteralReads v outcome ↔ literalOutcome v = outcome := by
  have hbound : 0 < 2 ^ (128 : Nat) := by decide
  constructor
  · intro h
    cases h with
    | integer n => rfl
    | @decimal s w h =>
        have hread := (decimalBelow_eq_ok hbound).mpr ⟨h, w.isLt⟩
        rw [literalOutcome_ok, decodeLiteral_string_ok hread, BitVec.ofNat_toNat, BitVec.setWidth_eq]
    | negative m => rfl
    | empty => rfl
    | tooLarge hs hfront hn =>
        exact literalOutcome_refused ((decimalBelow_eq_tooLarge hbound).mpr ⟨_, _, _, hs, hfront, hn⟩)
    | invalidDigit hne hnone hfits =>
        refine literalOutcome_refused ((decimalBelow_eq_invalidDigit hbound).mpr ⟨?_, hnone, hfits⟩)
        exact fun h => hne (String.toList_eq_nil_iff.mp h)
    | other hnatural hnegative hstring =>
        exact literalOutcome_error.mpr ⟨_, decodeLiteral_other hnatural hnegative hstring, rfl⟩
  · rintro rfl
    match v with
    | .number (.natural n) => exact .integer n
    | .number (.negative m) => exact .negative m
    | .string (some s) =>
        cases h : decimalBelow (2 ^ (128 : Nat)) s.toList with
        | ok n =>
            obtain ⟨hdecimal, hn⟩ := (decimalBelow_eq_ok hbound).mp h
            rw [literalOutcome_ok.mpr (decodeLiteral_string_ok h)]
            refine .decimal ?_
            rw [BitVec.toNat_ofNat, Nat.mod_eq_of_lt hn]
            exact hdecimal
        | error reason =>
            rw [literalOutcome_refused h]
            cases reason with
            | empty =>
                obtain rfl := String.toList_eq_nil_iff.mp (decimalBelow_eq_empty.mp h)
                exact .empty
            | invalidDigit =>
                obtain ⟨hne, hnone, hfits⟩ := (decimalBelow_eq_invalidDigit hbound).mp h
                exact .invalidDigit (fun h => hne (String.toList_eq_nil_iff.mpr h)) hnone hfits
            | tooLarge =>
                obtain ⟨front, rest, n, hs, hfront, hn⟩ := (decimalBelow_eq_tooLarge hbound).mp h
                exact .tooLarge hs hfront hn
    | .number (.other ..) | .string none | .null | .bool _ | .array _ | .object _ | .malformed =>
        exact .other nofun nofun nofun

/-- A result is the outcome, the number made into something, or a fault with the wording. -/
def ComesTo {α : Type} (make : Word128 → α) (result : Except DecodeFault α) :
    Except (Option String) Word128 → Prop
  | .ok w => result = .ok (make w)
  | .error message => ∃ fault, result = .error fault ∧ fault.message? = message

/-! ## Records with a gap

The fields in front of the gap are collected first, then the value, then the fields behind it.
Wherever the value stands, the record comes to the same. -/

/-- The documents of a literal, with a gap in place of its value. -/
inductive LiteralGap : (Value → Value) → Prop
  | object (front back : List (Json.Text × Value)) :
      LiteralGap fun v => .object (front ++ (some "value", v) :: back)
  | array (tag : Value) (rest : List Value) : LiteralGap fun v => .array (tag :: v :: rest)

/-- A field that is no tag does not count for the tag. -/
theorem findTag_append {family : Family} {numbered : Bool} {key : Json.Text}
    (hkey : key ≠ some tagKey) (v : Value) (back : List (Json.Text × Value)) :
    ∀ (front : List (Json.Text × Value)) (found : Option Shape),
      family.findTag numbered found (front ++ (key, v) :: back) =
        family.findTag numbered found (front ++ back)
  | [], found => by cases found <;> simp [Family.findTag, hkey]
  | (other, w) :: front, found => by
      have hrest (found : Option Shape) : family.findTag numbered found (front ++ (key, v) :: back) =
          family.findTag numbered found (front ++ back) := findTag_append hkey v back front found
      by_cases hother : other = some tagKey
      · cases found <;> simp [Family.findTag, hother, hrest]
      · cases found <;> simp [Family.findTag, hother, hrest]

section Collect

variable {decode : Kind → Decoder Datum} {specs : List FieldSpec}

/-- The fields of an object are collected one after the other. -/
theorem collect_append (back : List (Json.Text × Value)) :
    ∀ (front : List (Json.Text × Value)) (found : List (String × Datum)),
      collect decode specs found (front ++ back) =
        (collect decode specs found front >>= fun out => collect decode specs out.reverse back)
  | [], found => by
      rw [List.nil_append, collect]
      show _ = collect decode specs found.reverse.reverse back
      rw [List.reverse_reverse]
  | (none, v) :: front, found => rfl
  | (some key, v) :: front, found => by
      rw [List.cons_append, collect, collect]
      split
      · rw [bind_assoc]
        exact congrArg (skip v >>= ·) (funext fun _ => collect_append back front found)
      · split
        · rfl
        · rw [bind_assoc]
          exact congrArg (decode _ v >>= ·) (funext fun d => collect_append back front _)

/-- What is collected behind other fields depends on their names only. -/
theorem collect_of_keys : ∀ {fields : List (Json.Text × Value)} {found out : List (String × Datum)},
    collect decode specs found fields = .ok out → ∃ new, out = found.reverse ++ new ∧
      ∀ found' : List (String × Datum), found'.map Prod.fst = found.map Prod.fst →
        collect decode specs found' fields = .ok (found'.reverse ++ new)
  | [], found, out, h => by
      cases h
      refine ⟨[], (List.append_nil _).symm, fun found' _ => ?_⟩
      rw [List.append_nil, collect]
  | (none, v) :: fields, found, out, h => by cases h
  | (some key, v) :: fields, found, out, h => by
      have hany (l : List (String × Datum)) :
          (l.any fun entry => entry.1 = key) = (l.map Prod.fst).any fun name => name = key := by
        rw [List.any_map]
        rfl
      rw [collect] at h
      split at h
      · rename_i hfind
        obtain ⟨_, hskip, hrest⟩ := Except.bind_eq_ok.mp h
        obtain ⟨new, hout, hnew⟩ := collect_of_keys hrest
        refine ⟨new, hout, fun found' hkeys => ?_⟩
        rw [collect, hfind]
        exact Except.bind_eq_ok.mpr ⟨_, hskip, hnew found' hkeys⟩
      · rename_i spec hfind
        split at h
        · cases h
        · rename_i hfresh
          obtain ⟨d, hd, hrest⟩ := Except.bind_eq_ok.mp h
          obtain ⟨new, hout, hnew⟩ := collect_of_keys hrest
          have hbehind (l : List (String × Datum)) :
              ((key, d) :: l).reverse ++ new = l.reverse ++ (key, d) :: new := by
            rw [List.reverse_cons, List.append_assoc, List.singleton_append]
          refine ⟨(key, d) :: new, hout.trans (hbehind found), fun found' hkeys => ?_⟩
          rw [hany, ← hkeys, ← hany] at hfresh
          rw [collect, hfind]
          dsimp only
          rw [if_neg hfresh, ← hbehind]
          exact Except.bind_eq_ok.mpr ⟨d, hd, hnew _ (congrArg (List.cons key) hkeys)⟩

end Collect

/-- The value of a literal and its place, from the fields that were given. -/
theorem arrange_int {before new : List (String × Datum)}
    (hfresh : (before.any fun entry => entry.1 = "value") = false) (d : Datum) :
    arrange Shape.int.fields (before ++ ("value", d) :: new) =
      (arrange [FieldSpec.location] (before ++ new)).map (d :: ·) := by
  have hvalue : (before ++ ("value", d) :: new).find? (fun entry => entry.1 = "value") =
      some ("value", d) := by
    rw [List.find?_append, List.find?_eq_none.mpr (by simpa using hfresh)]
    rfl
  have hlocation : (before ++ ("value", d) :: new).find? (fun entry => entry.1 = "location") =
      (before ++ new).find? fun entry => entry.1 = "location" := by
    rw [List.find?_append, List.find?_append, List.find?_cons_of_neg (by simp)]
  simp only [arrange, Shape.fields, FieldSpec.required, FieldSpec.location, List.mapM_cons,
    List.mapM_nil, hvalue, hlocation]
  cases (before ++ new).find? (fun entry => entry.1 = "location") <;> rfl

/-- The value of a literal among the fields of an object. -/
theorem collect_value {decode : Kind → Decoder Datum} (found : List (String × Datum)) (v : Value)
    (back : List (Json.Text × Value)) :
    collect decode Shape.int.fields found ((some "value", v) :: back) =
      if found.any fun entry => entry.1 = "value" then .error (.repeatedField "value")
      else decode .literal v >>= fun d =>
        collect decode Shape.int.fields (("value", d) :: found) back := by
  rw [collect]
  rfl

/-- The fields of an object with a gap: what is put there is collected in between the others. -/
theorem collect_gap {decode : Kind → Decoder Datum} {front back : List (Json.Text × Value)}
    {filling : Value} {found : List (String × Datum)}
    (h : collect decode Shape.int.fields [] (front ++ (some "value", filling) :: back) =
      .ok found) :
    ∃ before new : List (String × Datum), (before.any fun entry => entry.1 = "value") = false ∧
      ∀ v, collect decode Shape.int.fields [] (front ++ (some "value", v) :: back) =
        (decode .literal v).map fun d => before ++ ("value", d) :: new := by
  rw [collect_append] at h
  obtain ⟨before, hbefore, hrest⟩ := Except.bind_eq_ok.mp h
  rw [collect_value] at hrest
  split at hrest
  · cases hrest
  · rename_i hfresh
    obtain ⟨filled, -, hbehind⟩ := Except.bind_eq_ok.mp hrest
    obtain ⟨new, -, hnew⟩ := collect_of_keys hbehind
    refine ⟨before, new, by rw [← List.any_reverse]; exact Bool.eq_false_iff.mpr hfresh, ?_⟩
    intro v
    rw [collect_append, hbefore]
    show collect decode Shape.int.fields before.reverse ((some "value", v) :: back) = _
    rw [collect_value, if_neg hfresh]
    cases decode .literal v with
    | error fault => rfl
    | ok d =>
        refine (hnew (("value", d) :: before.reverse) rfl).trans (congrArg Except.ok ?_)
        rw [List.reverse_cons, List.reverse_reverse, List.append_assoc, List.singleton_append]

/-- Whatever the gap is filled with, all there is to say about the record is what the filling comes
to. -/
theorem decodeRecord_gap {decode : Kind → Decoder Datum} {numbered : Bool} {gap : Value → Value}
    (hgap : LiteralGap gap) {filling : Value} {d span : Datum}
    (h : decodeRecord decode numbered .expr (gap filling) = .ok (.record .int [d, span]))
    (v : Value) : decodeRecord decode numbered .expr (gap v) =
      (decode .literal v).map fun d => .record .int [d, span] := by
  cases hgap with
  | object front back =>
      have hrecord (v : Value) :
          decodeRecord decode numbered .expr (.object (front ++ (some "value", v) :: back)) =
            (Family.expr.findTag numbered none (front ++ back) >>= fun shape =>
              collect decode shape.fields [] (front ++ (some "value", v) :: back) >>= fun found =>
                arrange shape.fields found >>= fun ds => .ok (.record shape ds)) := by
        have hkey : (some "value" : Json.Text) ≠ some tagKey := by decide
        rw [← findTag_append hkey v back front none]
        rfl
      rw [hrecord] at h
      obtain ⟨shape, hshape, h⟩ := Except.bind_eq_ok.mp h
      obtain ⟨found, hfound, h⟩ := Except.bind_eq_ok.mp h
      obtain ⟨ds, hds, hd⟩ := Except.bind_eq_ok.mp h
      cases hd
      obtain ⟨before, new, hfresh, hcollect⟩ := collect_gap hfound
      have hspan : arrange [FieldSpec.location] (before ++ new) = .ok [span] := by
        obtain ⟨filled, -, rfl⟩ := Except.map_eq_ok.mp ((hcollect filling).symm.trans hfound)
        rw [arrange_int hfresh] at hds
        obtain ⟨ds, harrange, hcons⟩ := Except.map_eq_ok.mp hds
        rw [harrange, (List.cons.inj hcons).2]
      rw [hrecord, hshape]
      show (collect decode Shape.int.fields [] (front ++ (some "value", v) :: back) >>= _) = _
      rw [hcollect]
      cases decode .literal v with
      | error fault => rfl
      | ok e =>
          show (arrange Shape.int.fields (before ++ ("value", e) :: new) >>= _) = _
          rw [arrange_int hfresh, hspan]
          rfl
  | array tag rest =>
      have hrecord (v : Value) : decodeRecord decode numbered .expr (.array (tag :: v :: rest)) =
          (Family.expr.ofTag numbered tag >>= fun shape =>
            decodeItems decode shape.fields (v :: rest) >>= fun ds => .ok (.record shape ds)) := rfl
      rw [hrecord] at h ⊢
      obtain ⟨shape, hshape, h⟩ := Except.bind_eq_ok.mp h
      obtain ⟨ds, hds, hrecord⟩ := Except.bind_eq_ok.mp h
      cases hrecord
      obtain ⟨filled, -, hrest⟩ := Except.bind_eq_ok.mp hds
      obtain ⟨ds, hspan, hcons⟩ := Except.bind_eq_ok.mp hrest
      cases hcons
      rw [hshape]
      show ((decode .literal v >>= fun d =>
        decodeItems decode [FieldSpec.location] rest >>= fun ds => .ok (d :: ds)) >>= _) = _
      cases decode .literal v with
      | error fault => rfl
      | ok e =>
          show ((decodeItems decode [FieldSpec.location] rest >>= _) >>= _) = _
          rw [hspan]
          rfl

/-- What nests too deep or is broken is no literal in any case. -/
theorem decodeLiteral_of_unfit {levels : Nat} {v : Value} (h : v.strictWithin levels = false) :
    decodeLiteral v = .error .wrongKind := by
  refine decodeLiteral_other ?_ ?_ ?_
  · rintro n rfl
    cases levels <;> cases h
  · rintro m rfl
    cases levels <;> cases h
  · rintro s rfl
    cases levels <;> cases h

/-- A record with a gap is fit where the record with a literal and what is put there are. -/
theorem strictWithin_gap {gap : Value → Value} (hgap : LiteralGap gap) (levels : Nat) (v : Value) :
    (gap v).strictWithin (levels + 1) =
      ((gap (.ofUInt64 0)).strictWithin (levels + 1) && v.strictWithin levels) := by
  have hzero : (Value.ofUInt64 0).strictWithin levels = true := by cases levels <;> rfl
  cases hgap with
  | object front back =>
      simp only [Value.strictWithin, List.all_append, List.all_cons, Option.isSome_some, hzero]
      cases v.strictWithin levels <;> simp
  | array tag rest =>
      simp only [Value.strictWithin, List.all_cons, hzero]
      cases v.strictWithin levels <;> simp

/-- A literal is decoded without going any deeper. -/
theorem decodeKind_literal (levels : Nat) (checked : Bool) (v : Value) :
    decodeKind levels checked .literal v =
      ((decodeLiteral v).map Datum.literal).mapError DecodeFault.literal := by
  refine decodeKind_scalar levels checked v fun family => ⟨?_, ?_, ?_⟩ <;>
    (intro h; cases h)

/-- A record of a literal comes to what its value comes to, wherever it stands. -/
theorem decodeKind_gap {gap : Value → Value} (hgap : LiteralGap gap) {levels : Nat}
    {checked : Bool} {kind : Kind} (hkind : kind.IsRecord .expr) {w₀ : Word128} {span : Datum}
    (h : decodeKind levels checked kind (gap (.ofUInt64 0)) =
      .ok (.record .int [.literal w₀, span])) {v : Value}
    {outcome : Except (Option String) Word128} (hv : LiteralReads v outcome) :
    ComesTo (fun w => .record .int [.literal w, span]) (decodeKind levels checked kind (gap v))
      outcome := by
  have hnull (v : Value) : gap v ≠ .null := by cases hgap <;> (intro h; cases h)
  have houtcome : literalOutcome v = outcome := literalReads_iff.mp hv
  cases levels with
  | zero =>
      exfalso
      rcases hkind with rfl | rfl <;> cases hgap <;> cases h
  | succ levels =>
      rw [decodeKind_record hkind (hnull _)] at h ⊢
      unfold decodeFamily at h ⊢
      split at h
      · cases h
      · rename_i hfit
        have hrecord := decodeRecord_gap hgap h v
        rw [decodeKind_literal] at hrecord
        by_cases hfits : v.strictWithin levels = true
        · rw [strictWithin_gap hgap, hfits, Bool.and_true, if_neg hfit, hrecord]
          cases outcome with
          | ok w =>
              rw [literalOutcome_ok.mp houtcome]
              rfl
          | error message =>
              obtain ⟨fault, hfault, hwording⟩ := literalOutcome_error.mp houtcome
              exact ⟨.literal fault, by rw [hfault]; rfl, hwording⟩
        · -- the check of the whole record may come first, but its fault has no wording either
          have hwrong := decodeLiteral_of_unfit (Bool.eq_false_iff.mpr hfits)
          have hnone : outcome = .error none :=
            houtcome.symm.trans (literalOutcome_error.mpr ⟨_, hwrong, rfl⟩)
          rw [hwrong] at hrecord
          rw [hnone]
          split
          · exact ⟨.unfit, rfl, rfl⟩
          · exact ⟨.literal .wrongKind, hrecord, rfl⟩

/-! ## Texts of literals -/

/-- The text of a literal whose value is spelled so. -/
def literalText (value : List Char) : String :=
  "\x7b\"type\":\"posint\",\"value\":" ++ String.ofList value ++ "\x7d"

/-- The characters of a text with a part in the middle. -/
theorem toList_enclosed (front close : String) (cs : List Char) :
    (front ++ String.ofList cs ++ close).toList = front.toList ++ (cs ++ close.toList) := by
  rw [String.toList_append, String.toList_append, String.toList_ofList, List.append_assoc]

/-- A text with a number in place of the value is read so. -/
theorem read_literalText {cs : List Char} {number : Number} (h : Numeral.number? cs = some number) :
    Json.read (literalText cs) =
      ⟨.object ([(some tagKey, .ofString "posint")] ++ [(some "value", .number number)]), false⟩ := by
  have hfront : Lexer.start.feed "\x7b\"type\":\"posint\",\"value\":".toList =
      ⟨.between, [.colon, .string (some "value"), .comma, .string (some "posint"), .colon,
        .string (some "type"), .openObject]⟩ := by
    decide +kernel
  have htokens : tokens (literalText cs) = [.openObject, .string (some "type"), .colon,
      .string (some "posint"), .comma, .string (some "value"), .colon, .number number,
      .closeObject] := by
    have hclose : "\x7d".toList = ['\x7d'] := by decide
    have hfeed : Lexer.start.feed (literalText cs).toList = ⟨.between, [.closeObject,
        .number number, .colon, .string (some "value"), .comma, .string (some "posint"), .colon,
        .string (some "type"), .openObject]⟩ := by
      unfold literalText
      rw [toList_enclosed, Lexer.feed_append, hfront, hclose]
      exact Lexer.feed_number h _
    exact congrArg Lexer.finish hfeed
  rw [Json.read, htokens]
  rfl

/-- A text is decoded from the document it is read to. -/
theorem fromText_of_read {v : Value} {text : String} (h : Json.read text = ⟨v, false⟩) :
    (fromText text : Except DecodeFault Expr) = fromJson v := by
  show (decodeText (.record .expr) text >>= ofDatum) = (decodeValue (.record .expr) v >>= ofDatum)
  rw [decodeText, h]
  show ((decodeValue (.record .expr) v >>= fun d => .ok d) >>= ofDatum) = _
  cases decodeValue (.record .expr) v <;> rfl

/-- A datum is read back to a part of a tree, or it is none. -/
theorem ofDatum_eq_ok {α : Type} [Portable α] {d : Datum} {a : α} :
    ofDatum d = .ok a ↔ Portable.ofDatum? d = some a := by
  unfold ofDatum
  split
  · rename_i b hb
    rw [hb, Except.ok.injEq, Option.some.injEq]
  · rename_i hnone
    rw [hnone]
    exact ⟨nofun, nofun⟩

/-- Only the datum of a literal is read to one. -/
theorem Expr.ofDatum?_eq_int {d : Datum} {w : Word128} {span : Span}
    (h : Expr.ofDatum? d = some (.int w span)) :
    ∃ place, d = .record .int [.literal w, place] ∧ Span.ofDatum? place = some span := by
  unfold Expr.ofDatum? at h
  split at h
  case h_3 =>
    obtain ⟨place, hplace, heq⟩ := Option.bind_eq_some_iff.mp h
    cases heq
    exact ⟨_, rfl, hplace⟩
  all_goals simp [Option.bind_eq_some_iff] at h

/-- What the record comes to, the expression comes to. -/
theorem ComesTo.bind_ofDatum {place : Datum} {span : Span} (hplace : Span.ofDatum? place = some span)
    {result : Except DecodeFault Datum} {outcome : Except (Option String) Word128}
    (h : ComesTo (fun w => .record .int [.literal w, place]) result outcome) :
    ComesTo (fun w => Expr.int w span) (result >>= ofDatum) outcome := by
  cases outcome with
  | ok w =>
      have hread : Expr.ofDatum? (.record .int [.literal w, place]) = some (.int w span) := by
        rw [Expr.ofDatum?, hplace]
        rfl
      exact Except.bind_eq_ok.mpr ⟨_, h, ofDatum_eq_ok.mpr hread⟩
  | error message =>
      obtain ⟨fault, rfl, hwording⟩ := h
      exact ⟨fault, rfl, hwording⟩

/-- A text of a record of a literal comes to what its value comes to. -/
theorem fromText_gap {gap : Value → Value} (hgap : LiteralGap gap) {w₀ : Word128} {span : Span}
    (h : fromJson (gap (.ofUInt64 0)) = .ok (Expr.int w₀ span)) {v : Value} {text : String}
    {outcome : Except (Option String) Word128} (hv : LiteralReads v outcome)
    (htext : Json.read text = ⟨gap v, false⟩) :
    ComesTo (fun w => Expr.int w span) (fromText text) outcome := by
  obtain ⟨d, hd, hofDatum⟩ := Except.bind_eq_ok.mp h
  obtain ⟨place, rfl, hplace⟩ := Expr.ofDatum?_eq_int (ofDatum_eq_ok.mp hofDatum)
  rw [fromText_of_read htext]
  exact (decodeKind_gap hgap (Or.inl rfl) hd hv).bind_ofDatum hplace

/-- What the text of a number comes to in place of an integer literal: only the digits of a number
of 64 bits are taken, and only negative numbers of 64 bits are refused with a wording. -/
inductive NumeralReads : List Char → Except (Option String) Word128 → Prop
  | natural {w : Word128} (h : w.toNat < 2 ^ (64 : Nat)) :
      NumeralReads (Nat.toDigits 10 w.toNat) (.ok w)
  | negative {m : Nat} (hpos : 0 < m) (hle : m ≤ 2 ^ (63 : Nat)) :
      NumeralReads ('-' :: Nat.toDigits 10 m) (.error (some ("negative literal -" ++ toString m)))
  | other {cs : List Char} (hnatural : ∀ n < 2 ^ (64 : Nat), cs ≠ Nat.toDigits 10 n)
      (hnegative : ∀ m, 0 < m → m ≤ 2 ^ (63 : Nat) → cs ≠ '-' :: Nat.toDigits 10 m) :
      NumeralReads cs (.error none)

/-- A number in place of a literal comes to what its text comes to. -/
theorem literalReads_of_number? {cs : List Char} {number : Number}
    (h : Numeral.number? cs = some number) {outcome : Except (Option String) Word128}
    (hcs : NumeralReads cs outcome) : LiteralReads (.number number) outcome := by
  cases hcs with
  | @natural w hw =>
      have hvalue : (UInt64.ofNat w.toNat).toNat = w.toNat := by
        rw [UInt64.toNat_ofNat']
        exact Nat.mod_eq_of_lt hw
      have hnatural : Numeral.number? (Nat.toDigits 10 w.toNat) =
          some (.natural (UInt64.ofNat w.toNat)) :=
        Numeral.number?_eq_natural.mpr (congrArg (Nat.toDigits 10) hvalue.symm)
      obtain rfl := Option.some.inj (h.symm.trans hnatural)
      have hreads := LiteralReads.integer (UInt64.ofNat w.toNat)
      rwa [hvalue, BitVec.ofNat_toNat, BitVec.setWidth_eq] at hreads
  | @negative m hpos hle =>
      have hnegative := Numeral.number?_eq_negative.mpr ⟨hpos, hle, rfl⟩
      obtain rfl := Option.some.inj (h.symm.trans hnegative)
      exact .negative m
  | other hnatural hnegative =>
      refine .other ?_ ?_ nofun
      · rintro n hn
        cases hn
        exact hnatural n.toNat n.toNat_lt (Numeral.number?_eq_natural.mp h)
      · rintro m hm
        cases hm
        obtain ⟨hpos, hle, hcs⟩ := Numeral.number?_eq_negative.mp h
        exact hnegative m hpos hle hcs

/-- What is refused in place of a literal is not decoded there. -/
theorem not_decodes_literal {checked : Bool} {v : Value} {message : Option String}
    (hv : LiteralReads v (.error message)) : ¬Place.Decodes ⟨checked, .literal, v⟩ := by
  rintro ⟨levels, d, hd⟩
  obtain ⟨fault, hfault, -⟩ := literalOutcome_error.mp (literalReads_iff.mp hv)
  rw [decodeKind_literal, hfault] at hd
  cases hd

/-! ## Literals are read and written exactly -/

/-- Integer literals are written so that they are read back, and what is read in place of their
value is taken or refused for what it is. -/
structure LiteralsExact : Prop where
  /-- a literal of 64 bits is written as a number and any other one as its decimal, and its text is
  read back -/
  written (w : Word128) (span : Span) :
    (toJson (Expr.int w span)).get? "value" =
      some (if w.toNat < 2 ^ (64 : Nat) then .ofUInt64 (UInt64.ofNat w.toNat)
        else .ofString (toString w.toNat)) ∧
      fromText (toText (Expr.int w span)) = .ok (Expr.int w span)
  /-- every document comes to a number or to a refusal, and not to two of them -/
  decided (v : Value) : ∃! outcome, LiteralReads v outcome
  /-- in place of the value of a record, wherever that stands, a document comes to what it comes
  to -/
  placed {gap : Value → Value} {levels : Nat} {checked : Bool} {kind : Kind} {span : Datum}
    {v : Value} {outcome : Except (Option String) Word128} :
    LiteralGap gap → kind.IsRecord .expr →
      decodeKind levels checked kind (gap (.ofUInt64 0)) = .ok (.record .int [.literal 0, span]) →
        LiteralReads v outcome →
          ComesTo (fun w => .record .int [.literal w, span])
            (decodeKind levels checked kind (gap v)) outcome
  /-- so does the text of a record -/
  read {gap : Value → Value} {span : Span} {v : Value} {text : String}
    {outcome : Except (Option String) Word128} :
    LiteralGap gap → fromJson (gap (.ofUInt64 0)) = .ok (Expr.int 0 span) →
      Json.read text = ⟨gap v, false⟩ → LiteralReads v outcome →
        ComesTo (fun w => Expr.int w span) (fromText text) outcome
  /-- a number in the text comes to what its characters come to -/
  numerals {cs : List Char} {number : Number} {outcome : Except (Option String) Word128} :
    Numeral.number? cs = some number → NumeralReads cs outcome →
      ComesTo (fun w => Expr.int w .zero) (fromText (literalText cs)) outcome
  /-- what is no literal in place of one is refused with all around it -/
  refused {α : Type} [Portable α] {text : String} {checked : Bool} {v : Value}
    {message : Option String} : LiteralReads v (.error message) →
      Place.Inside ⟨false, Portable.kind α, (Json.read text).value⟩ ⟨checked, .literal, v⟩ →
        ∃ fault, (fromText text : Except DecodeFault α) = .error fault

/-- A literal is an object with its span inside. -/
theorem depth_int (w : Word128) (span : Span) : (toJson (Expr.int w span)).depth = 3 := by
  show max 0 (max (encodeLiteral w).depth 2) + 1 = 3
  rw [Datum.depth_encodeLiteral]
  rfl

/-- Integer literals are read and written exactly. -/
theorem integerLiterals_exact : LiteralsExact where
  written w span := by
    refine ⟨rfl, ?_⟩
    have hback := (roundTrips_of Expr.of_toDatum Expr.ofDatum?_toDatum).1 (Expr.int w span)
    exact hback.1 (by rw [depth_int]; decide)
  decided v := ⟨literalOutcome v, literalReads_iff.mpr rfl, fun _ h => (literalReads_iff.mp h).symm⟩
  placed hgap hkind h hv := decodeKind_gap hgap hkind h hv
  read hgap h htext hv := fromText_gap hgap h hv htext
  numerals {cs number outcome} h hcs := by
    have hgap : LiteralGap fun v => .object ([(some tagKey, .ofString "posint")] ++
      [(some "value", v)]) := .object _ []
    have hzero : fromJson (.object [(some tagKey, .ofString "posint"), (some "value", .ofUInt64 0)]) =
        .ok (Expr.int 0 .zero) := rfl
    exact fromText_gap hgap hzero (literalReads_of_number? h hcs) (read_literalText h)
  refused {α _ text checked v message} hv hinside := by
    cases h : (fromText text : Except DecodeFault α) with
    | error fault => exact ⟨fault, rfl⟩
    | ok a =>
        exfalso
        obtain ⟨d, hd, -⟩ := Except.bind_eq_ok.mp h
        obtain ⟨d', hd', -⟩ := Except.bind_eq_ok.mp hd
        have hroot : Place.Decodes ⟨false, Portable.kind α, (Json.read text).value⟩ :=
          ⟨depthLimit, d', hd'⟩
        exact not_decodes_literal hv (hroot.inside hinside)

/-- The greatest literal behind a sign and zeros, among fields in another order; a text that is too
large before the character that is no digit; a negative number; and a fraction inside a unary
expression. -/
theorem integerLiterals_exact_edges :
    (fromText ("\x7b\"extra\":true,\"value\":\"+000340282366920938463463374607431768211455\"," ++
        "\"location\":[[1,2],[3,4]],\"type\":\"posint\"\x7d") =
      .ok (Expr.int (BitVec.allOnes 128) ⟨⟨1, 2⟩, ⟨3, 4⟩⟩)) ∧
    (∃ fault, fromText "[\"posint\",\"340282366920938463463374607431768211456x\"]" =
        (.error fault : Except DecodeFault Expr) ∧
      fault.message? = some ("invalid literal `340282366920938463463374607431768211456x`: " ++
        "number too large to fit in target type")) ∧
    (∃ fault, fromText (literalText ['-', '5']) = (.error fault : Except DecodeFault Expr) ∧
      fault.message? = some ("negative literal -" ++ toString 5)) ∧
    ∃ fault, fromText "[\"unary\",\"-\",[\"posint\",1.5]]" =
      (.error fault : Except DecodeFault Expr) := by
  refine ⟨?_, ?_, ?_, ?_⟩
  · have hsign : "+000340282366920938463463374607431768211455".toList =
        '+' :: "000340282366920938463463374607431768211455".toList := by decide +kernel
    have hvalue : (BitVec.allOnes 128).toNat =
        valueOf 10 "000340282366920938463463374607431768211455".toList := by decide +kernel
    have hdecimal : Decimal "+000340282366920938463463374607431768211455".toList
        (BitVec.allOnes 128).toNat :=
      Eq.mpr (congrArg₂ Decimal hsign hvalue)
        (.signed (by decide +kernel) (List.all_eq_true.mp (by decide +kernel)))
    let place : Value := .array [.array [.ofUInt64 1, .ofUInt64 2], .array [.ofUInt64 3, .ofUInt64 4]]
    exact integerLiterals_exact.read
      (.object [(some "extra", .bool true)]
        [(some "location", place), (some tagKey, .ofString "posint")])
      rfl (by set_option maxRecDepth 2000 in rfl) (.decimal hdecimal)
  · have hfront : "340282366920938463463374607431768211456x".toList =
        "340282366920938463463374607431768211456".toList ++ ['x'] := by decide +kernel
    have hlarge : 2 ^ (128 : Nat) ≤
        valueOf 10 "340282366920938463463374607431768211456".toList := by decide +kernel
    exact integerLiterals_exact.read (.array (.ofString "posint") []) rfl rfl
      (.tooLarge hfront
        (.plain (by decide +kernel) (List.all_eq_true.mp (by decide +kernel))) hlarge)
  · have hnumber : Numeral.number? ['-', '5'] = some (.negative 5) := rfl
    exact integerLiterals_exact.numerals hnumber (.negative (m := 5) (by decide) (by decide))
  · have hreads : LiteralReads (.number (.other "1.5" true)) (.error none) :=
      .other (fun _ h => by cases h) (fun _ h => by cases h) fun _ h => by cases h
    have hread : (Json.read "[\"unary\",\"-\",[\"posint\",1.5]]").value =
        .array [.ofString "unary", .ofString "-",
          .array [.ofString "posint", .number (.other "1.5" true)]] := by
      rfl
    have hunary : Family.expr.Names false .unary (.ofString "unary") := .name (by decide) rfl
    have hint : Family.expr.Names true .int (.ofString "posint") := .name (by decide) rfl
    have houter {spec : FieldSpec} {v : Value} (hv : (spec, v) ∈ Shape.unary.fields.zip
        [.ofString "-", .array [.ofString "posint", .number (.other "1.5" true)]]) :
        Place.Part ⟨false, .record .expr, (Json.read "[\"unary\",\"-\",[\"posint\",1.5]]").value⟩
          ⟨true, spec.kind, v⟩ := by
      rw [hread]
      exact .element (Or.inl rfl) (.tagged rfl hunary) hv
    have hinner {spec : FieldSpec} {v : Value}
        (hv : (spec, v) ∈ Shape.int.fields.zip [.number (.other "1.5" true)]) :
        Place.Part ⟨true, .record .expr, .array [.ofString "posint", .number (.other "1.5" true)]⟩
          ⟨true, spec.kind, v⟩ :=
      .element (Or.inl rfl) (.tagged rfl hint) hv
    exact integerLiterals_exact.refused hreads
      (.tail (.single (houter (List.mem_cons_of_mem _ List.mem_cons_self)))
        (hinner List.mem_cons_self))

end ByteJump.Syntax
