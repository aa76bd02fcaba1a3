import Mathlib.Algebra.Group.Nat.Defs
import ByteJump.Json.Reader
import ByteJump.Syntax.Literal

set_option autoImplicit false

/-!
# Cutting printed documents into tokens

The lexer gives back the tokens that a document is printed from.  A printed token ends where the
next one starts: all are cut off by their own last character but numbers, and behind a number comes
a comma, a bracket or the end of the text.

The proof follows the text of a document from the front.  For each kind of token there is a lemma
that feeds its characters to the lexer: strings with their escapes by induction on the characters,
numbers by induction on their digits, all others at once.  Only a number is still open when its
characters are used up, so `Holds` says of a lexer that it has certain tokens or has them once the
number that is open is closed.  `holds_value` is the recursion over documents.
-/

namespace ByteJump

/-! ## Decimals

Digits are written by the library and read by the lexer, so the first thing to show is that both
mean the same by a digit. -/

theorem digitChar_lt_ten : ∀ d < 10, d.digitChar.isDigit = true ∧
    d.digitChar.toNat - '0'.toNat = d ∧ (d.digitChar = '0' ↔ d = 0) ∧ d.digitChar ≠ '-' ∧
      d.digitChar ≠ '+' := by decide

/-- A number is written in decimal digits. -/
theorem toList_toString (n : Nat) : (toString n).toList = Nat.toDigits 10 n := by
  rw [Nat.toString_eq_repr, Nat.repr, String.toList_ofList]

/-- One digit behind the digits of `value`. -/
theorem Text.digitsBelow_digitChar {bound value d : Nat} (rest : List Char) (hd : d < 10)
    (hnext : value * 10 + d < bound) :
    Text.digitsBelow bound value (d.digitChar :: rest) =
      Text.digitsBelow bound (value * 10 + d) rest := by
  obtain ⟨hdigit, hvalue, -⟩ := digitChar_lt_ten d hd
  rw [Text.digitsBelow, if_pos hdigit, hvalue]
  exact if_pos hnext

/-- The digits of a number below the bound are read to the number. -/
theorem Text.digitsBelow_toDigits {bound : Nat} (rest : List Char) : ∀ n < bound,
    Text.digitsBelow bound 0 (Nat.toDigits 10 n ++ rest) = Text.digitsBelow bound n rest := by
  intro n
  induction n using Nat.strongRecOn generalizing rest with
  | ind n ih =>
      intro hn
      by_cases hsmall : n < 10
      · have hzero : 0 * 10 + n = n := by omega
        rw [Nat.toDigits_of_lt_base hsmall, List.singleton_append,
          Text.digitsBelow_digitChar rest hsmall (by omega), hzero]
      · have hnext : n / 10 * 10 + n % 10 = n := by omega
        rw [Nat.toDigits_of_base_le (by decide) (by omega), List.append_assoc,
          ih (n / 10) (by omega) _ (by omega), List.singleton_append,
          Text.digitsBelow_digitChar rest (by omega) (by omega), hnext]

/-- There is at least one digit, and it is no sign. -/
theorem exists_toDigits (n : Nat) : ∃ c cs, Nat.toDigits 10 n = c :: cs ∧ c ≠ '+' ∧ c ≠ '-' := by
  induction n using Nat.strongRecOn with
  | ind n ih =>
      by_cases hsmall : n < 10
      · obtain ⟨-, -, -, hminus, hplus⟩ := digitChar_lt_ten n hsmall
        exact ⟨_, [], Nat.toDigits_of_lt_base hsmall, hplus, hminus⟩
      · obtain ⟨c, cs, hdigits, hsign⟩ := ih (n / 10) (by omega)
        rw [Nat.toDigits_of_base_le (by decide) (by omega), hdigits]
        exact ⟨c, cs ++ [_], rfl, hsign⟩

/-- The decimal of a number below the bound is read to the number. -/
theorem Text.decimalBelow_toString {bound n : Nat} (h : n < bound) :
    Text.decimalBelow bound (toString n).toList = .ok n := by
  have hdigits := Text.digitsBelow_toDigits [] n h
  rw [List.append_nil] at hdigits
  obtain ⟨c, cs, hcons, hplus, -⟩ := exists_toDigits n
  rw [toList_toString, hcons]
  rw [hcons] at hdigits
  unfold Text.decimalBelow
  split
  · rename_i heq
    cases heq
  · rename_i heq
    exact absurd (List.cons.inj heq).1 hplus
  · rename_i heq
    exact absurd (List.cons.inj heq).1 hplus
  · exact hdigits

/-- A literal is read back. -/
theorem Syntax.decodeLiteral_encode (w : Word128) :
    Syntax.decodeLiteral (Syntax.encodeLiteral w) = .ok w := by
  unfold Syntax.encodeLiteral
  split
  · rename_i hsmall
    have hvalue : (UInt64.ofNat w.toNat).toNat = w.toNat := by
      rw [UInt64.toNat_ofNat']
      exact Nat.mod_eq_of_lt hsmall
    rw [Syntax.decodeLiteral, hvalue, BitVec.ofNat_toNat, BitVec.setWidth_eq]
  · rw [Syntax.decodeLiteral, Text.decimalBelow_toString w.isLt]
    show Except.ok (BitVec.ofNat 128 w.toNat) = _
    rw [BitVec.ofNat_toNat, BitVec.setWidth_eq]

namespace Json

/-! ## Documents that are printed faithfully -/

namespace Value

mutual

/-- All numbers are natural, all strings and keys are made of characters, and nothing is
malformed. -/
def isPlain : Value → Bool
  | .null | .bool _ | .number (.natural _) => true
  | .string text => text.isSome
  | .array items => itemsPlain items
  | .object fields => fieldsPlain fields
  | .number (.negative _) | .number (.other ..) | .malformed => false

/-- All items are plain. -/
def itemsPlain : List Value → Bool
  | [] => true
  | v :: vs => isPlain v && itemsPlain vs

/-- All fields are plain. -/
def fieldsPlain : List (Text × Value) → Bool
  | [] => true
  | (key, v) :: fs => key.isSome && isPlain v && fieldsPlain fs

end

end Value

namespace Lexer

/-- The characters of some tokens. -/
def chars (ts : List Token) : List Char := ts.flatMap fun t => t.spell.toList

/-- The lexer after more characters. -/
def feed (lexer : Lexer) (cs : List Char) : Lexer := cs.foldl step lexer

/-- Characters are fed one after the other. -/
theorem feed_append (lexer : Lexer) (cs ds : List Char) :
    lexer.feed (cs ++ ds) = (lexer.feed cs).feed ds := List.foldl_append

theorem feed_cons (lexer : Lexer) (c : Char) (cs : List Char) :
    lexer.feed (c :: cs) = (lexer.step c).feed cs := rfl

/-- The characters of both. -/
theorem chars_append (ts us : List Token) : chars (ts ++ us) = chars ts ++ chars us :=
  List.flatMap_append

theorem chars_cons (t : Token) (ts : List Token) : chars (t :: ts) = t.spell.toList ++ chars ts :=
  rfl

/-! ## Strings -/

/-- The lexer inside a string of which some characters are read. -/
def inside (read : List Char) (found : List Token) : Lexer :=
  ⟨.quoted ⟨.plain, none, false, read⟩, found⟩

/-- A digit of base 16 is read as it was written. -/
theorem hexValue?_hexDigit : ∀ n < 16, hexValue? (hexDigit n) = some n := by decide

/-- The spelling of a character is read to the character. -/
theorem feed_spellChar (read : List Char) (found : List Token) (c : Char) :
    (inside read found).feed (spellChar c) = inside (c :: read) found := by
  unfold spellChar
  split
  iterate 7 rfl
  rename_i hquote hbackslash _ _ _ _ _
  split
  · rename_i hcontrol
    have hhigh := hexValue?_hexDigit (c.toNat / 16) (by omega)
    have hlow := hexValue?_hexDigit (c.toNat % 16) (by omega)
    have hvalue : ((0 * 16 + 0) * 16 + 0) * 16 * 16 + c.toNat / 16 * 16 + c.toNat % 16 = c.toNat := by
      omega
    have hzero : hexValue? '0' = some 0 := by decide
    have hunit : Quoted.pushUnit ⟨.unit 1 (c.toNat / 16), none, false, read⟩
        (c.toNat / 16 * 16 + c.toNat % 16) = ⟨.plain, none, false, c :: read⟩ := by
      have hsum : c.toNat / 16 * 16 + c.toNat % 16 = c.toNat := by omega
      rw [hsum, Quoted.pushUnit, if_neg (by omega), if_neg (by omega), Quoted.pushChar,
        Char.ofNat_toNat]
      rfl
    simp [feed, inside, step, stepQuoted, hzero, hhigh, hlow, hunit]
  · rename_i hcontrol
    have hstep : stepQuoted found ⟨.plain, none, false, read⟩ c = inside (c :: read) found := by
      unfold stepQuoted
      rw [if_neg hquote, if_neg hbackslash, if_neg hcontrol]
      rfl
    exact hstep

/-- By induction on the characters. -/
theorem feed_spellChars (found : List Token) : ∀ (cs read : List Char),
    (inside read found).feed (cs.flatMap spellChar) = inside (cs.reverse ++ read) found
  | [], _ => rfl
  | c :: cs, read => by
      rw [List.flatMap_cons, feed_append, feed_spellChar, feed_spellChars found cs,
        List.reverse_cons, List.append_assoc]
      rfl

/-- The quotes around the characters open and close the string. -/
theorem feed_string (found : List Token) (s : String) :
    (Lexer.mk .between found).feed (spellText (some s)).toList =
      ⟨.between, .string (some s) :: found⟩ := by
  rw [spellText, String.toList_ofList, List.cons_append, feed_cons]
  show (inside [] found).feed (s.toList.flatMap spellChar ++ ['"']) = _
  rw [feed_append, feed_spellChars, List.append_nil]
  show (⟨.between, .string (some (String.ofList s.toList.reverse.reverse)) :: found⟩ : Lexer) = _
  rw [List.reverse_reverse, String.ofList_toList]

/-! ## Numbers -/

/-- The lexer at the end of a number, which what comes next cuts off. -/
def counting (n : Nat) (spelled : List Char) (found : List Token) : Lexer :=
  ⟨.numeral ⟨if n = 0 then .zero else .integer, false, n, false, 0, false, 0, spelled⟩, found⟩

/-- The first digit starts a number. -/
theorem begin_digitChar (found : List Token) (d : Nat) (hd : d < 10) :
    begin found d.digitChar = counting d [d.digitChar] found := by
  have hcases : d = 0 ∨ d = 1 ∨ d = 2 ∨ d = 3 ∨ d = 4 ∨ d = 5 ∨ d = 6 ∨ d = 7 ∨ d = 8 ∨ d = 9 := by
    omega
  rcases hcases with rfl | rfl | rfl | rfl | rfl | rfl | rfl | rfl | rfl | rfl <;> rfl

/-- One more digit of an integer that has room for it. -/
theorem push?_digitChar {n : Numeral} (hphase : n.phase = .integer) (hroom : n.full = false)
    {d : Nat} (hd : d < 10) (hbound : n.significand * 10 + d < 2 ^ 64) :
    n.push? d.digitChar =
      some { n with
        significand := n.significand * 10 + d, spelled := d.digitChar :: n.spelled } := by
  obtain ⟨hdigit, hvalue, -⟩ := digitChar_lt_ten d hd
  have hextend : Numeral.extend?
      { n with phase := .integer, spelled := d.digitChar :: n.spelled } d.digitChar =
        some (n.significand * 10 + d) := by
    unfold Numeral.extend? digitValue
    dsimp only
    rw [hvalue, hroom, Bool.false_or, if_neg]
    rw [decide_eq_true_eq]
    exact Nat.not_le_of_lt hbound
  unfold Numeral.push?
  rw [hphase]
  dsimp only
  rw [if_pos hdigit, Numeral.pushInteger]
  dsimp only
  rw [hextend]

/-- One digit behind those of a number that is not zero. -/
theorem step_digitChar (n d : Nat) (spelled : List Char) (found : List Token) (hn : 0 < n)
    (hd : d < 10) (hbound : n * 10 + d < 2 ^ 64) :
    (counting n spelled found).step d.digitChar =
      counting (n * 10 + d) (d.digitChar :: spelled) found := by
  have hpush := push?_digitChar (n := ⟨.integer, false, n, false, 0, false, 0, spelled⟩) rfl rfl
    hd hbound
  unfold counting
  rw [if_neg (by omega), if_neg (by omega), step]
  dsimp only
  rw [hpush]

/-- The digits of a number of 64 bits are read to the number. -/
theorem feed_toDigits (found : List Token) : ∀ n < 2 ^ 64, ∃ spelled,
    (Lexer.mk .between found).feed (Nat.toDigits 10 n) = counting n spelled found := by
  intro n
  induction n using Nat.strongRecOn with
  | ind n ih =>
      intro hn
      by_cases hsmall : n < 10
      · rw [Nat.toDigits_of_lt_base hsmall]
        exact ⟨[n.digitChar], begin_digitChar found n hsmall⟩
      · obtain ⟨spelled, hfeed⟩ := ih (n / 10) (by omega) (by omega)
        have hnext : n / 10 * 10 + n % 10 = n := by omega
        have hstep := step_digitChar (n / 10) (n % 10) spelled found (by omega) (by omega)
          (by omega)
        rw [hnext] at hstep
        rw [Nat.toDigits_of_base_le (by decide) (by omega), feed_append, hfeed]
        exact ⟨(n % 10).digitChar :: spelled, hstep⟩

/-- All digits are taken, and the number is still open. -/
theorem feed_natural (found : List Token) (n : UInt64) : ∃ spelled,
    (Lexer.mk .between found).feed (Number.natural n).spell.toList =
      counting n.toNat spelled found := by
  rw [Number.spell, toList_toString]
  exact feed_toDigits found n.toNat n.toNat_lt

/-! ## Documents -/

/-- The tokens found are all there, but for a number that is still to be cut off. -/
def Holds (lexer : Lexer) (found : List Token) : Prop :=
  lexer = ⟨.between, found⟩ ∨ ∃ (n : UInt64) (spelled : List Char) (front : List Token),
    lexer = counting n.toNat spelled front ∧ found = .number (.natural n) :: front

theorem finish?_counting (n : UInt64) (spelled : List Char) :
    Numeral.finish? ⟨if n.toNat = 0 then .zero else .integer, false, n.toNat, false, 0, false, 0,
      spelled⟩ = some (.natural n) := by
  unfold Numeral.finish?
  rw [UInt64.ofNat_toNat]
  by_cases hzero : n.toNat = 0
  · rw [if_pos hzero]
    rfl
  · rw [if_neg hzero]
    rfl

/-- A number ends where a comma, a bracket or a brace comes next. -/
theorem push?_counting (n : Nat) (spelled : List Char) {c : Char} (hdigit : c.isDigit = false)
    (hpoint : c ≠ '.') (hmark : c ≠ 'e') (hmark' : c ≠ 'E') :
    Numeral.push? ⟨if n = 0 then .zero else .integer, false, n, false, 0, false, 0, spelled⟩ c =
      none := by
  by_cases hzero : n = 0
  · rw [if_pos hzero]
    simp [Numeral.push?, hpoint, hmark, hmark']
  · rw [if_neg hzero]
    simp [Numeral.push?, hdigit, hpoint, hmark, hmark']

/-- The end of the text closes a number. -/
theorem Holds.finish {lexer : Lexer} {found : List Token} (h : lexer.Holds found) :
    lexer.finish = found.reverse := by
  rcases h with rfl | ⟨n, spelled, front, rfl, rfl⟩
  · rfl
  · unfold Lexer.finish counting
    dsimp only
    rw [finish?_counting]

/-- Behind a document a comma, a bracket or a brace is a token of its own. -/
theorem Holds.step {lexer : Lexer} {found : List Token} (h : lexer.Holds found) {c : Char}
    (hdigit : c.isDigit = false) (hpoint : c ≠ '.') (hmark : c ≠ 'e') (hmark' : c ≠ 'E') :
    lexer.step c = begin found c := by
  rcases h with rfl | ⟨n, spelled, front, rfl, rfl⟩
  · rfl
  · unfold Lexer.step counting
    dsimp only
    rw [push?_counting _ _ hdigit hpoint hmark hmark']
    dsimp only
    rw [finish?_counting]

/-- A comma closes a number. -/
theorem Holds.comma {lexer : Lexer} {found : List Token} (h : lexer.Holds found) :
    lexer.feed (Token.comma.spell.toList) = ⟨.between, .comma :: found⟩ := by
  show lexer.step ',' = _
  rw [h.step (by decide) (by decide) (by decide) (by decide)]
  rfl

/-- A bracket closes a number. -/
theorem Holds.closeArray {lexer : Lexer} {found : List Token} (h : lexer.Holds found) :
    lexer.feed (Token.closeArray.spell.toList) = ⟨.between, .closeArray :: found⟩ := by
  show lexer.step ']' = _
  rw [h.step (by decide) (by decide) (by decide) (by decide)]
  rfl

theorem Holds.closeObject {lexer : Lexer} {found : List Token} (h : lexer.Holds found) :
    lexer.feed (Token.closeObject.spell.toList) = ⟨.between, .closeObject :: found⟩ := by
  show lexer.step '\x7d' = _
  rw [h.step (by decide) (by decide) (by decide) (by decide)]
  rfl

/-- A key and the colon behind it. -/
theorem feed_key (found ts : List Token) (key : String) :
    (Lexer.mk .between found).feed (chars (.string (some key) :: .colon :: ts)) =
      (Lexer.mk .between (.colon :: .string (some key) :: found)).feed (chars ts) := by
  have hkey : (Lexer.mk .between found).feed (Token.string (some key)).spell.toList = _ :=
    feed_string found key
  rw [chars_cons, chars_cons, feed_append, feed_append, hkey]
  rfl

mutual

/-- The tokens of a plain document are read back. -/
theorem holds_value : ∀ (v : Value) (found : List Token), v.isPlain = true →
    ((Lexer.mk .between found).feed (chars v.toTokens)).Holds (v.toTokens.reverse ++ found)
  | .null, found, _ => Or.inl rfl
  | .bool true, found, _ => Or.inl rfl
  | .bool false, found, _ => Or.inl rfl
  | .number (.natural n), found, _ => by
      obtain ⟨spelled, hfeed⟩ := feed_natural found n
      refine Or.inr ⟨n, spelled, found, ?_, rfl⟩
      rw [Value.toTokens, chars_cons, ← hfeed]
      exact congrArg _ (List.append_nil _)
  | .string (some s), found, _ => by
      refine Or.inl ?_
      rw [Value.toTokens, chars_cons, feed_append, Token.spell, feed_string]
      rfl
  | .array items, found, h => by
      rw [Value.toTokens, chars_cons, feed_append, List.reverse_cons, List.append_assoc]
      exact holds_items items (.openArray :: found) h
  | .object fields, found, h => by
      rw [Value.toTokens, chars_cons, feed_append, List.reverse_cons, List.append_assoc]
      exact holds_fields fields (.openObject :: found) h

/-- The tokens of the items of a plain array are read back. -/
theorem holds_items : ∀ (vs : List Value) (found : List Token), Value.itemsPlain vs = true →
    ((Lexer.mk .between found).feed (chars (Value.itemTokens vs))).Holds
      ((Value.itemTokens vs).reverse ++ found)
  | [], found, _ => Or.inl rfl
  | [v], found, h => by
      rw [Value.itemsPlain, Bool.and_eq_true] at h
      have hv := holds_value v found h.1
      rw [Value.itemTokens, chars_append, feed_append, List.reverse_append]
      exact Or.inl hv.closeArray
  | v :: w :: vs, found, h => by
      rw [Value.itemsPlain, Bool.and_eq_true] at h
      have hv := holds_value v found h.1
      have hrest := holds_items (w :: vs) (.comma :: (v.toTokens.reverse ++ found)) h.2
      rw [Value.itemTokens, chars_append, chars_cons, feed_append, feed_append, hv.comma]
      simpa using hrest

/-- The tokens of the fields of a plain object are read back. -/
theorem holds_fields : ∀ (fs : List (Text × Value)) (found : List Token),
    Value.fieldsPlain fs = true →
    ((Lexer.mk .between found).feed (chars (Value.fieldTokens fs))).Holds
      ((Value.fieldTokens fs).reverse ++ found)
  | [], found, _ => Or.inl rfl
  | [(some key, v)], found, h => by
      rw [Value.fieldsPlain, Bool.and_eq_true, Bool.and_eq_true] at h
      have hv := holds_value v (.colon :: .string (some key) :: found) h.1.2
      rw [Value.fieldTokens, feed_key, chars_append, feed_append]
      refine Or.inl (hv.closeObject.trans ?_)
      simp
  | (some key, v) :: f :: fs, found, h => by
      rw [Value.fieldsPlain, Bool.and_eq_true, Bool.and_eq_true] at h
      have hv := holds_value v (.colon :: .string (some key) :: found) h.1.2
      have hrest := holds_fields (f :: fs)
        (.comma :: (v.toTokens.reverse ++ .colon :: .string (some key) :: found)) h.2
      rw [Value.fieldTokens, feed_key, chars_append, chars_cons, feed_append, feed_append, hv.comma]
      simpa using hrest

end

end Lexer

/-- A document is printed as its tokens, one by one. -/
theorem Value.toList_print (v : Value) : v.print.toList = Lexer.chars v.toTokens := by
  rw [print, String.toList_join, List.flatMap_map]
  rfl

/-- The tokens of a printed document are those it was printed from. -/
theorem tokens_print {v : Value} (h : v.isPlain = true) : tokens v.print = v.toTokens := by
  have hholds := Lexer.holds_value v [] h
  rw [List.append_nil] at hholds
  unfold tokens
  rw [v.toList_print]
  exact hholds.finish.trans (List.reverse_reverse _)

end Json

end ByteJump
