import ByteJump.Proofs.Json.Lexing

set_option autoImplicit false

/-!
# Reading printed documents

The reader gives back the document whose tokens it is given, and printing loses nothing of a plain
document.

The reader keeps a stack of what is open and takes one token at a time.  `feed_value` says that
the tokens of a well-formed value, fed at any place where a value may stand, have the same effect
as pushing the value there; it goes by recursion on the value, with the items of an array and the
fields of an object as further cases, so that the stack is part of the statement.  With an empty
stack it says that the document is read.  The lexer's part was settled before: the tokens of a
printed document are those of the document.
-/

namespace ByteJump.Json

namespace Reader

/-- The reader after more tokens. -/
def feed (reader : Reader) (ts : List Token) : Reader := ts.foldl step reader

/-- Tokens are fed one after the other. -/
theorem feed_append (reader : Reader) (ts us : List Token) :
    reader.feed (ts ++ us) = (reader.feed ts).feed us := List.foldl_append

theorem feed_cons (reader : Reader) (t : Token) (ts : List Token) :
    reader.feed (t :: ts) = (reader.step t).feed ts := rfl

/-- A first item may stand where an item may stand. -/
theorem step_firstItem {t : Token} (stack : List Frame) (h : t ≠ .closeArray) :
    (Reader.reading .firstItem stack).step t = (Reader.reading .value stack).step t := by
  cases stack with
  | nil => cases t <;> rfl
  | cons frame stack => cases frame <;> cases t <;> first | rfl | exact absurd rfl h

theorem feed_firstItem (v : Value) (stack : List Frame) (rest : List Token) :
    (Reader.reading .firstItem stack).feed (v.toTokens ++ rest) =
      (Reader.reading .value stack).feed (v.toTokens ++ rest) := by
  obtain ⟨t, ts, htokens, ht⟩ : ∃ t ts, v.toTokens = t :: ts ∧ t ≠ .closeArray := by
    cases v <;> exact ⟨_, _, rfl, nofun⟩
  rw [htokens, List.cons_append, feed_cons, feed_cons, step_firstItem stack ht]

theorem itemTokens_cons (v : Value) (vs : List Value) :
    ∃ rest, Value.itemTokens (v :: vs) = v.toTokens ++ rest := by
  cases vs <;> exact ⟨_, rfl⟩

/-- A first key may stand where a key may stand. -/
theorem feed_firstKey (f : Text × Value) (fs acc : List (Text × Value)) (stack : List Frame) :
    (Reader.reading .firstKey (.object acc :: stack)).feed (Value.fieldTokens (f :: fs)) =
      (Reader.reading .key (.object acc :: stack)).feed (Value.fieldTokens (f :: fs)) := by
  cases fs <;> rfl

mutual

/-- The tokens of a document are read to the document. -/
theorem feed_value : ∀ (v : Value) (stack : List Frame), v.wellFormed = true →
    (Reader.reading .value stack).feed v.toTokens = push v stack
  | .null, _, _ => rfl
  | .bool _, _, _ => rfl
  | .number _, _, _ => rfl
  | .string _, _, _ => rfl
  | .array [], _, _ => rfl
  | .array (v :: vs), stack, h => by
      have hitems := feed_items (v :: vs) [] stack (List.cons_ne_nil v vs) h
      obtain ⟨rest, hrest⟩ := itemTokens_cons v vs
      rw [hrest] at hitems
      rw [Value.toTokens, feed_cons, hrest]
      exact (feed_firstItem v (.array [] :: stack) rest).trans hitems
  | .object [], _, _ => rfl
  | .object (f :: fs), stack, h => by
      have hfields := feed_fields (f :: fs) [] stack (List.cons_ne_nil f fs) h
      rw [Value.toTokens, feed_cons]
      exact (feed_firstKey f fs [] stack).trans hfields

/-- The tokens of items are read to an array of them, behind those that were read before. -/
theorem feed_items : ∀ (vs acc : List Value) (stack : List Frame), vs ≠ [] →
    Value.itemsWellFormed vs = true →
    (Reader.reading .value (.array acc :: stack)).feed (Value.itemTokens vs) =
      push (.array (acc.reverse ++ vs)) stack
  | [v], acc, stack, _, h => by
      rw [Value.itemsWellFormed, Bool.and_eq_true] at h
      rw [Value.itemTokens, feed_append, feed_value v _ h.1, ← List.reverse_cons]
      rfl
  | v :: w :: vs, acc, stack, _, h => by
      rw [Value.itemsWellFormed, Bool.and_eq_true] at h
      have hrest := feed_items (w :: vs) (v :: acc) stack (List.cons_ne_nil w vs) h.2
      rw [List.reverse_cons, List.append_assoc] at hrest
      rw [Value.itemTokens, feed_append, feed_value v _ h.1]
      exact hrest

/-- The tokens of fields are read to an object of them, behind those that were read before. -/
theorem feed_fields : ∀ (fs acc : List (Text × Value)) (stack : List Frame), fs ≠ [] →
    Value.fieldsWellFormed fs = true →
    (Reader.reading .key (.object acc :: stack)).feed (Value.fieldTokens fs) =
      push (.object (acc.reverse ++ fs)) stack
  | [(key, v)], acc, stack, _, h => by
      rw [Value.fieldsWellFormed, Bool.and_eq_true] at h
      have hv := feed_value v (.field acc key :: stack) h.1
      rw [Value.fieldTokens, feed_cons, feed_cons, feed_append]
      refine (congrArg (feed · [.closeObject]) hv).trans ?_
      rw [← List.reverse_cons]
      rfl
  | (key, v) :: f :: fs, acc, stack, _, h => by
      rw [Value.fieldsWellFormed, Bool.and_eq_true] at h
      have hv := feed_value v (.field acc key :: stack) h.1
      have hrest := feed_fields (f :: fs) ((key, v) :: acc) stack (List.cons_ne_nil f fs) h.2
      rw [List.reverse_cons, List.append_assoc] at hrest
      rw [Value.fieldTokens, feed_cons, feed_cons, feed_append]
      exact (congrArg (feed · (.comma :: Value.fieldTokens (f :: fs))) hv).trans hrest

end

end Reader

namespace Value

mutual

/-- A plain value is well formed. -/
theorem wellFormed_of_isPlain : ∀ {v : Value}, v.isPlain = true → v.wellFormed = true
  | .null, _ | .bool _, _ | .number _, _ | .string _, _ => rfl
  | .array _, h => by
      rw [isPlain] at h
      rw [wellFormed]
      exact itemsWellFormed_of_plain h
  | .object _, h => by
      rw [isPlain] at h
      rw [wellFormed]
      exact fieldsWellFormed_of_plain h

theorem itemsWellFormed_of_plain : ∀ {vs : List Value}, itemsPlain vs = true →
    itemsWellFormed vs = true
  | [], _ => rfl
  | v :: vs, h => by
      rw [itemsPlain, Bool.and_eq_true] at h
      rw [itemsWellFormed, wellFormed_of_isPlain h.1, itemsWellFormed_of_plain h.2]
      rfl

theorem fieldsWellFormed_of_plain : ∀ {fs : List (Text × Value)}, fieldsPlain fs = true →
    fieldsWellFormed fs = true
  | [], _ => rfl
  | (key, v) :: fs, h => by
      rw [fieldsPlain, Bool.and_eq_true, Bool.and_eq_true] at h
      rw [fieldsWellFormed, wellFormed_of_isPlain h.1.2, fieldsWellFormed_of_plain h.2]
      rfl

end

mutual

/-- A plain document is fit within some levels if it nests no deeper. -/
theorem strictWithin_iff : ∀ {v : Value} (levels : Nat), v.isPlain = true →
    (v.strictWithin levels = true ↔ v.depth ≤ levels)
  | .null, levels, _ | .bool _, levels, _ | .number (.natural _), levels, _ => by
      cases levels <;> simp [strictWithin, depth]
  | .string (some _), levels, _ => by
      cases levels <;> simp [strictWithin, depth]
  | .array items, 0, _ => by simp [strictWithin, depth]
  | .array items, levels + 1, h => by
      rw [strictWithin, depth, Nat.add_le_add_iff_right]
      exact itemsWithin_iff levels h
  | .object fields, 0, _ => by simp [strictWithin, depth]
  | .object fields, levels + 1, h => by
      rw [strictWithin, depth, Nat.add_le_add_iff_right]
      exact fieldsWithin_iff levels h

theorem itemsWithin_iff : ∀ {vs : List Value} (levels : Nat), itemsPlain vs = true →
    (vs.all (strictWithin levels) = true ↔ itemsDepth vs ≤ levels)
  | [], levels, _ => by simp [itemsDepth]
  | v :: vs, levels, h => by
      rw [itemsPlain, Bool.and_eq_true] at h
      rw [List.all_cons, Bool.and_eq_true, strictWithin_iff levels h.1, itemsWithin_iff levels h.2,
        itemsDepth, Nat.max_le]

theorem fieldsWithin_iff : ∀ {fs : List (Text × Value)} (levels : Nat), fieldsPlain fs = true →
    ((fs.all fun field => field.1.isSome && strictWithin levels field.2) = true ↔
      fieldsDepth fs ≤ levels)
  | [], levels, _ => by simp [fieldsDepth]
  | (key, v) :: fs, levels, h => by
      rw [fieldsPlain, Bool.and_eq_true, Bool.and_eq_true] at h
      rw [List.all_cons, Bool.and_eq_true, Bool.and_eq_true, strictWithin_iff levels h.1.2,
        fieldsWithin_iff levels h.2, fieldsDepth, Nat.max_le]
      simp [h.1.1]

end

end Value

/-- A plain document is read from its text, and nothing stands behind it. -/
theorem read_print {v : Value} (h : v.isPlain = true) : read v.print = ⟨v, false⟩ := by
  have hfeed := Reader.feed_value v [] (Value.wellFormed_of_isPlain h)
  unfold read ofTokens
  rw [tokens_print h]
  show ((Reader.reading .value []).feed v.toTokens).finish = _
  rw [hfeed]
  rfl

end ByteJump.Json
