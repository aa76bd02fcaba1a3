import Mathlib.Data.List.Chain
import ByteJump.Proofs.Json.Reading

set_option autoImplicit false

/-!
# Texts of a document

A document has many texts: white space may stand between any two tokens and around them, and a
character of a string may stand for itself or be escaped.  `Value.SpelledIn` relates a document
whose numbers are integers of 64 bits and whose strings are made of characters to all its texts.
Each of them is read to the document.

The lexer cuts a number off only where the next character cannot continue it.  Two numbers never
follow one another in a document, so what follows a number always does.

The grammar has two levels.  `Token.Spelled` gives the texts of a token, with escapes in strings;
`Spelled` gives the texts of a row of tokens, with blanks anywhere between.  A document is spelled
if its tokens are.  The lexer is fed such a text token by token.  The invariant is `Ready`: either
all tokens so far are found, or the last one is a number that is still open and will be closed by
whatever comes next, since the tokens of a document never have two numbers in a row.
-/

namespace ByteJump.Json

/-! ## Strings

A character may stand for itself, or be written as an escape of one character or of hexadecimal
digits, by two of these if it does not fit one. -/

/-- Four hexadecimal digits, upper or lower case, and the number they stand for. -/
inductive Quoted.Hex : List Char → Nat → Prop
  | digits {a b c d : Char} {i j k l : Nat} (ha : hexValue? a = some i) (hb : hexValue? b = some j)
      (hc : hexValue? c = some k) (hd : hexValue? d = some l) :
      Hex [a, b, c, d] (((i * 16 + j) * 16 + k) * 16 + l)

/-- Some characters between the quotes of a string, and the characters they mean.  A character
behind the first plane is escaped by the two halves of its surrogate pair. -/
inductive Quoted.Spells : List Char → List Char → Prop
  | done : Spells [] []
  | plain {c : Char} {cs meant : List Char} (hquote : c ≠ '"') (hbackslash : c ≠ '\\')
      (hcontrol : 0x20 ≤ c.toNat) (rest : Spells cs meant) : Spells (c :: cs) (c :: meant)
  | short {letter c : Char} {cs meant : List Char} (hletter : escape? letter = some c)
      (rest : Spells cs meant) : Spells ('\\' :: letter :: cs) (c :: meant)
  | unit {c : Char} {digits cs meant : List Char} (hdigits : Hex digits c.toNat)
      (rest : Spells cs meant) : Spells ('\\' :: 'u' :: digits ++ cs) (c :: meant)
  | pair {c : Char} {high low cs meant : List Char} (hplane : 0x10000 ≤ c.toNat)
      (hhigh : Hex high (0xD800 + (c.toNat - 0x10000) / 0x400))
      (hlow : Hex low (0xDC00 + (c.toNat - 0x10000) % 0x400)) (rest : Spells cs meant) :
      Spells ('\\' :: 'u' :: high ++ '\\' :: 'u' :: low ++ cs) (c :: meant)

/-! ## Tokens -/

/-- A token of a document whose numbers are integers of 64 bits and whose strings are made of
characters. -/
def Token.isExact : Token → Bool
  | .number (.natural _) => true
  | .number (.negative m) => 0 < m ∧ m ≤ 2 ^ (63 : Nat)
  | .number (.other ..) => false
  | .string text => text.isSome
  | .invalid => false
  | _ => true

/-- The token is a number. -/
def Token.isNumber : Token → Bool
  | .number _ => true
  | _ => false

/-- The spellings of a token: that of the printer, and for a string all others. -/
inductive Token.Spelled : Token → List Char → Prop
  | printed {t : Token} (h : t.isExact = true) : Spelled t t.spell.toList
  | quoted {s : String} {cs : List Char} (h : Quoted.Spells cs s.toList) :
      Spelled (.string (some s)) ('"' :: cs ++ ['"'])

/-- White space. -/
def Blank (cs : List Char) : Prop := ∀ c ∈ cs, isBlank c = true

/-- No characters at all are blank. -/
theorem Blank.nil : Blank [] := fun _ hc => nomatch hc

/-- Tokens one behind the other, each with white space in front of it, and more white space behind
them. -/
inductive Spelled : List Token → List Char → Prop
  | done {blanks : List Char} (h : Blank blanks) : Spelled [] blanks
  | token {blanks cs rest : List Char} {t : Token} {ts : List Token} (hblanks : Blank blanks)
      (ht : t.Spelled cs) (hrest : Spelled ts rest) : Spelled (t :: ts) (blanks ++ (cs ++ rest))

/-- The text is one of the document. -/
def Value.SpelledIn (v : Value) (text : String) : Prop := Spelled v.toTokens text.toList

/-- All tokens of a spelled row are exact. -/
theorem Spelled.isExact {ts : List Token} {cs : List Char} (h : Spelled ts cs) :
    ∀ t ∈ ts, t.isExact = true := by
  induction h with
  | done => exact fun t ht => nomatch ht
  | token _ ht _ ih =>
      refine List.forall_mem_cons.mpr ⟨?_, ih⟩
      cases ht with
      | printed h => exact h
      | quoted => rfl

/-- Printing spells. -/
theorem Spelled.printed : ∀ {ts : List Token}, (∀ t ∈ ts, t.isExact = true) →
    Spelled ts (Lexer.chars ts)
  | [], _ => .done Blank.nil
  | _ :: _, h => .token Blank.nil (.printed (h _ List.mem_cons_self))
      (.printed fun t ht => h t (List.mem_cons_of_mem _ ht))

/-! ## Tokens of documents

Between two values there is a comma or a bracket, so numbers are apart. -/

/-- Two numbers need something between them. -/
def Token.Apart (t u : Token) : Prop := t.isNumber = false ∨ u.isNumber = false

namespace Value

/-- Nothing need stand behind a token that is no number. -/
theorem isChain_cons {t : Token} {ts : List Token} (ht : t.isNumber = false)
    (hts : ts.IsChain Token.Apart) : (t :: ts).IsChain Token.Apart :=
  List.isChain_cons.mpr ⟨fun _ _ => Or.inl ht, hts⟩

/-- Tokens keep apart from a comma or a bracket that follows them. -/
theorem isChain_mark {ts us : List Token} {mark : Token} (hmark : mark.isNumber = false)
    (hts : ts.IsChain Token.Apart) (hus : us.IsChain Token.Apart) :
    (ts ++ mark :: us).IsChain Token.Apart := by
  refine List.isChain_append.mpr ⟨hts, isChain_cons hmark hus, ?_⟩
  intro t _ u hu
  obtain rfl : mark = u := Option.some.inj hu
  exact Or.inr hmark

mutual

/-- No two numbers follow one another in a document. -/
theorem isChain_toTokens : ∀ v : Value, v.toTokens.IsChain Token.Apart
  | .null | .bool _ | .number _ | .string _ | .malformed => .singleton _
  | .array items => isChain_cons rfl (isChain_itemTokens items)
  | .object fields => isChain_cons rfl (isChain_fieldTokens fields)

/-- Items are separated by commas. -/
theorem isChain_itemTokens : ∀ vs : List Value, (itemTokens vs).IsChain Token.Apart
  | [] => .singleton _
  | [v] => isChain_mark rfl (isChain_toTokens v) .nil
  | v :: w :: vs => isChain_mark rfl (isChain_toTokens v) (isChain_itemTokens (w :: vs))

/-- In front of each value there is a colon. -/
theorem isChain_fieldTokens : ∀ fs : List (Text × Value), (fieldTokens fs).IsChain Token.Apart
  | [] => .singleton _
  | [(_, v)] => isChain_cons rfl (isChain_cons rfl (isChain_mark rfl (isChain_toTokens v) .nil))
  | (_, v) :: f :: fs => isChain_cons rfl (isChain_cons rfl
      (isChain_mark rfl (isChain_toTokens v) (isChain_fieldTokens (f :: fs))))

end

end Value

/-! ## The lexer on a text of a document -/

namespace Lexer

/-- An escape by four digits gives the string the unit they stand for. -/
theorem feed_hex {q : Quoted} (hmode : q.mode = .plain) (found : List Token) {digits : List Char}
    {unit : Nat} (h : Quoted.Hex digits unit) :
    (Lexer.mk (.quoted q) found).feed ('\\' :: 'u' :: digits) =
      ⟨.quoted (q.pushUnit unit), found⟩ := by
  cases h with
  | digits ha hb hc hd =>
      simp [feed, step, stepQuoted, hmode, ha, hb, hc, hd]
      rfl

/-- No character is a half of a pair. -/
theorem toNat_not_surrogate (c : Char) : ¬(0xD800 ≤ c.toNat ∧ c.toNat < 0xE000) := by
  have hvalid : c.toNat.isValidChar := c.valid
  unfold Nat.isValidChar at hvalid
  omega

/-- A unit that is no half of a pair is the character it counts. -/
theorem pushUnit_toNat (read : List Char) (c : Char) :
    Quoted.pushUnit ⟨.plain, none, false, read⟩ c.toNat = ⟨.plain, none, false, c :: read⟩ := by
  have hvalid := toNat_not_surrogate c
  rw [Quoted.pushUnit, if_neg (by omega), if_neg (by omega), Char.ofNat_toNat]
  rfl

/-- The two halves of a pair make one character. -/
theorem pushUnit_pair (read : List Char) {c : Char} (hplane : 0x10000 ≤ c.toNat) :
    (Quoted.pushUnit ⟨.plain, none, false, read⟩ (0xD800 + (c.toNat - 0x10000) / 0x400)).pushUnit
      (0xDC00 + (c.toNat - 0x10000) % 0x400) = ⟨.plain, none, false, c :: read⟩ := by
  have hvalid : c.toNat.isValidChar := c.valid
  unfold Nat.isValidChar at hvalid
  have hcode : 0x10000 + (0xD800 + (c.toNat - 0x10000) / 0x400 - 0xD800) * 0x400 +
      (0xDC00 + (c.toNat - 0x10000) % 0x400 - 0xDC00) = c.toNat := by
    omega
  have hfirst : Quoted.pushUnit ⟨.plain, none, false, read⟩
      (0xD800 + (c.toNat - 0x10000) / 0x400) =
        ⟨.plain, some (0xD800 + (c.toNat - 0x10000) / 0x400), false, read⟩ := by
    rw [Quoted.pushUnit, if_pos (by omega)]
    rfl
  rw [hfirst, Quoted.pushUnit, if_neg (by omega), if_pos (by omega)]
  dsimp only
  rw [hcode, Char.ofNat_toNat]

/-- What is written between the quotes is read to what it means. -/
theorem feed_spells (found : List Token) {cs meant : List Char} (h : Quoted.Spells cs meant)
    (read : List Char) : (inside read found).feed cs = inside (meant.reverse ++ read) found := by
  induction h generalizing read with
  | done => rfl
  | @plain c cs meant hquote hbackslash hcontrol _ ih =>
      have hstep : (inside read found).step c = inside (c :: read) found := by
        show stepQuoted found ⟨.plain, none, false, read⟩ c = _
        unfold stepQuoted
        rw [if_neg hquote, if_neg hbackslash, if_neg (Nat.not_lt_of_le hcontrol)]
        rfl
      rw [feed_cons, hstep, ih, List.reverse_cons, List.append_assoc]
      rfl
  | @short letter c cs meant hletter _ ih =>
      have hu : letter ≠ 'u' := by
        rintro rfl
        cases hletter
      have hstep : ((inside read found).step '\\').step letter = inside (c :: read) found := by
        show stepQuoted found ⟨.escape, none, false, read⟩ letter = _
        unfold stepQuoted
        dsimp only
        rw [if_neg hu, hletter]
        rfl
      rw [feed_cons, feed_cons, hstep, ih, List.reverse_cons, List.append_assoc]
      rfl
  | @unit c digits cs meant hdigits _ ih =>
      have hunit : (inside read found).feed ('\\' :: 'u' :: digits) = inside (c :: read) found := by
        rw [inside, feed_hex rfl found hdigits, pushUnit_toNat]
        rfl
      rw [feed_append, hunit, ih, List.reverse_cons, List.append_assoc]
      rfl
  | @pair c high low cs meant hplane hhigh hlow _ ih =>
      have hpair : (inside read found).feed ('\\' :: 'u' :: high ++ '\\' :: 'u' :: low) =
          inside (c :: read) found := by
        rw [feed_append, inside, feed_hex rfl found hhigh, feed_hex _ found hlow,
          pushUnit_pair read hplane]
        · rfl
        · rw [Quoted.pushUnit]
          split
          · rfl
          · split <;> rfl
      rw [feed_append, hpair, ih, List.reverse_cons, List.append_assoc]
      rfl

/-! ### Numbers -/

/-- The digits of a negative number of 64 bits are read to the number behind its sign. -/
theorem feed_negative (found : List Token) (m : Nat) (hpos : 0 < m) (hm : m ≤ 2 ^ 63) :
    ∃ spelled, (Lexer.mk .between found).feed ('-' :: Nat.toDigits 10 m) =
      ⟨.numeral ⟨.integer, true, m, false, 0, false, 0, spelled⟩, found⟩ := by
  induction m using Nat.strongRecOn with
  | ind m ih =>
      by_cases hsmall : m < 10
      · have hcases : m = 1 ∨ m = 2 ∨ m = 3 ∨ m = 4 ∨ m = 5 ∨ m = 6 ∨ m = 7 ∨ m = 8 ∨ m = 9 := by
          omega
        refine ⟨[m.digitChar, '-'], ?_⟩
        rw [Nat.toDigits_of_lt_base hsmall]
        rcases hcases with rfl | rfl | rfl | rfl | rfl | rfl | rfl | rfl | rfl <;> rfl
      · obtain ⟨spelled, hfeed⟩ := ih (m / 10) (by omega) (by omega) (by omega)
        have hnext : m / 10 * 10 + m % 10 = m := by omega
        have hpush := push?_digitChar
          (n := ⟨.integer, true, m / 10, false, 0, false, 0, spelled⟩) rfl rfl
          (Nat.mod_lt m (by decide)) (by dsimp only; omega)
        refine ⟨(m % 10).digitChar :: spelled, ?_⟩
        rw [Nat.toDigits_of_base_le (by decide) (by omega), ← List.cons_append, feed_append, hfeed,
          feed_cons, step]
        dsimp only
        rw [hpush, hnext]
        rfl

/-- What an integer goes on with. -/
def continues (c : Char) : Bool := c.isDigit || c = '.' || c = 'e' || c = 'E'

/-- A number is closed by a character that cannot continue it. -/
theorem push?_eq_none {n : Numeral} (hphase : n.phase = .zero ∨ n.phase = .integer) {c : Char}
    (hc : continues c = false) : n.push? c = none := by
  simp only [continues, Bool.or_eq_false_iff, decide_eq_false_iff_not] at hc
  obtain ⟨⟨⟨hdigit, hpoint⟩, hmark⟩, hmark'⟩ := hc
  rcases hphase with hphase | hphase <;>
    simp [Numeral.push?, hphase, hdigit, hpoint, hmark, hmark']

/-- The tokens found are all there, but for an integer that the next character may go on with. -/
def Ready (lexer : Lexer) (found : List Token) : Prop :=
  lexer = ⟨.between, found⟩ ∨ ∃ (n : Numeral) (number : Number) (front : List Token),
    (n.phase = .zero ∨ n.phase = .integer) ∧ n.finish? = some number ∧
      lexer = ⟨.numeral n, front⟩ ∧ found = .number number :: front

/-- The end of the text closes a number. -/
theorem Ready.finish {lexer : Lexer} {found : List Token} (h : lexer.Ready found) :
    lexer.finish = found.reverse := by
  rcases h with rfl | ⟨n, number, front, -, hnumber, rfl, rfl⟩
  · rfl
  · simp only [Lexer.finish, hnumber]

/-- A character that goes on with no integer starts afresh. -/
theorem Ready.feed_cons {lexer : Lexer} {found : List Token} (h : lexer.Ready found) {c : Char}
    (hc : continues c = false) (cs : List Char) :
    lexer.feed (c :: cs) = (Lexer.mk .between found).feed (c :: cs) := by
  rcases h with rfl | ⟨n, number, front, hphase, hnumber, rfl, rfl⟩
  · rfl
  · rw [Lexer.feed_cons, Lexer.feed_cons, step]
    simp only [push?_eq_none hphase hc, hnumber]
    rfl

theorem continues_blank {c : Char} (h : isBlank c = true) : continues c = false := by
  simp only [isBlank, Bool.or_eq_true, decide_eq_true_eq] at h
  rcases h with ((rfl | rfl) | rfl) | rfl <;> decide

/-- Blanks between tokens are passed over. -/
theorem feed_blank {found : List Token} : ∀ {cs : List Char}, Blank cs →
    (Lexer.mk .between found).feed cs = ⟨.between, found⟩
  | [], _ => rfl
  | c :: cs, h => by
      have hstep : (Lexer.mk .between found).step c = ⟨.between, found⟩ :=
        if_pos (h c List.mem_cons_self)
      rw [Lexer.feed_cons, hstep]
      exact feed_blank fun d hd => h d (List.mem_cons_of_mem _ hd)

/-! ### Tokens -/

/-- All tokens but numbers start with a character that goes on with no integer. -/
theorem Spelled.cut {t : Token} {cs : List Char} (h : t.Spelled cs) (ht : t.isNumber = false) :
    ∃ c rest, cs = c :: rest ∧ continues c = false := by
  cases h with
  | quoted => exact ⟨_, _, rfl, by decide⟩
  | printed hexact =>
      cases t with
      | number => cases ht
      | invalid => cases hexact
      | string text =>
          cases text with
          | none => cases hexact
          | some s =>
              have hspell : (Token.string (some s)).spell.toList =
                  '"' :: (s.toList.flatMap spellChar ++ ['"']) := by
                rw [Token.spell, spellText, String.toList_ofList]
                rfl
              exact ⟨'"', _, hspell, by decide⟩
      | bool value => cases value <;> exact ⟨_, _, rfl, by decide⟩
      | openArray | closeArray | openObject | closeObject | comma | colon | null =>
          exact ⟨_, _, rfl, by decide⟩

/-- A spelled token is found, and cut off unless it is a number. -/
theorem feed_token (found : List Token) {t : Token} {cs : List Char} (h : t.Spelled cs) :
    ((Lexer.mk .between found).feed cs).Ready (t :: found) ∧
      (t.isNumber = false → (Lexer.mk .between found).feed cs = ⟨.between, t :: found⟩) := by
  have hcut : t.isNumber = false ∧ (Lexer.mk .between found).feed cs = ⟨.between, t :: found⟩ ∨
      ((Lexer.mk .between found).feed cs).Ready (t :: found) ∧ t.isNumber = true := by
    cases h with
    | @quoted s cs hspells =>
        refine Or.inl ⟨rfl, ?_⟩
        show (inside [] found).feed (cs ++ ['"']) = _
        rw [feed_append, feed_spells found hspells, List.append_nil]
        show Lexer.mk .between (.string (some (String.ofList s.toList.reverse.reverse)) :: found) = _
        rw [List.reverse_reverse, String.ofList_toList]
    | printed hexact =>
        cases t with
        | invalid => cases hexact
        | string text =>
            cases text with
            | none => cases hexact
            | some s => exact Or.inl ⟨rfl, feed_string found s⟩
        | bool value => cases value <;> exact Or.inl ⟨rfl, rfl⟩
        | openArray | closeArray | openObject | closeObject | comma | colon | null =>
            exact Or.inl ⟨rfl, rfl⟩
        | number number =>
            refine Or.inr ⟨Or.inr ?_, rfl⟩
            cases number with
            | other => cases hexact
            | natural n =>
                obtain ⟨spelled, hfeed⟩ := feed_natural found n
                refine ⟨_, _, found, ?_, finish?_counting n spelled, hfeed, rfl⟩
                by_cases hzero : n.toNat = 0
                · exact Or.inl (if_pos hzero)
                · exact Or.inr (if_neg hzero)
            | negative m =>
                have hbounds : 0 < m ∧ m ≤ 2 ^ 63 := of_decide_eq_true hexact
                obtain ⟨spelled, hfeed⟩ := feed_negative found m hbounds.1 hbounds.2
                refine ⟨⟨.integer, true, m, false, 0, false, 0, spelled⟩, _, found, Or.inr rfl,
                  if_pos hbounds, ?_, rfl⟩
                rw [Token.spell, Number.spell, String.toList_append, toList_toString]
                exact hfeed
  rcases hcut with ⟨hnumber, hfeed⟩ | ⟨hready, hnumber⟩
  · exact ⟨Or.inl hfeed, fun _ => hfeed⟩
  · exact ⟨hready, fun hother => by rw [hother] at hnumber; cases hnumber⟩

/-- The tokens of a spelling are found, behind those that were found before. -/
theorem feed_spelled {ts : List Token} {cs : List Char} (h : Spelled ts cs)
    (hts : ts.IsChain Token.Apart) {lexer : Lexer} {found : List Token} (hready : lexer.Ready found)
    (hfirst : lexer = ⟨.between, found⟩ ∨ ∀ t ∈ ts.head?, t.isNumber = false) :
    (lexer.feed cs).Ready (ts.reverse ++ found) := by
  induction h generalizing lexer found with
  | @done blanks hblanks =>
      cases blanks with
      | nil => exact hready
      | cons c cs =>
          rw [hready.feed_cons (continues_blank (hblanks c List.mem_cons_self))]
          exact Or.inl (feed_blank hblanks)
  | @token blanks cs rest t ts hblanks ht _ ih =>
      have hafresh : lexer.feed (blanks ++ (cs ++ rest)) =
          (Lexer.mk .between found).feed (blanks ++ (cs ++ rest)) := by
        rcases hfirst with rfl | hfirst
        · rfl
        · cases blanks with
          | cons c blanks =>
              exact hready.feed_cons (continues_blank (hblanks c List.mem_cons_self)) _
          | nil =>
              obtain ⟨c, cs', rfl, hc⟩ := Spelled.cut ht (hfirst t rfl)
              exact hready.feed_cons hc _
      obtain ⟨hnext, hapart⟩ := feed_token found ht
      rw [hafresh, feed_append, feed_blank hblanks, feed_append, List.reverse_cons,
        List.append_assoc]
      refine ih hts.tail hnext ?_
      cases hnumber : t.isNumber with
      | false => exact Or.inl (hapart hnumber)
      | true =>
          refine Or.inr fun u hu => (hts.rel_head? hu).resolve_left ?_
          rw [hnumber]
          exact nofun

end Lexer

/-- The tokens of a text of a document are those of the document. -/
theorem tokens_spelled {v : Value} {text : String} (h : v.SpelledIn text) :
    tokens text = v.toTokens := by
  have hready : (Lexer.start.feed text.toList).Ready (v.toTokens.reverse ++ []) :=
    Lexer.feed_spelled h (Value.isChain_toTokens v) (Or.inl rfl) (Or.inl rfl)
  rw [List.append_nil] at hready
  exact hready.finish.trans (List.reverse_reverse _)

/-! ## Documents of exact tokens

Documents are built from their tokens, so that they are exact can be read off these. -/

namespace Value

/-- The numbers of the document are integers of 64 bits, its strings and keys are made of
characters, and nothing is malformed. -/
def Exact (v : Value) : Prop := ∀ t ∈ v.toTokens, t.isExact = true

/-- The items of an exact document are exact. -/
theorem Exact.items : ∀ {vs : List Value}, (∀ t ∈ itemTokens vs, t.isExact = true) →
    ∀ v ∈ vs, v.Exact
  | [v], h, _, hv => by
      obtain rfl := List.mem_singleton.mp hv
      exact fun t ht => h t (List.mem_append_left _ ht)
  | v :: w :: vs, h, u, hu => by
      rcases List.mem_cons.mp hu with rfl | hu
      · exact fun t ht => h t (List.mem_append_left _ ht)
      · exact Exact.items
          (fun t ht => h t (List.mem_append_right _ (List.mem_cons_of_mem _ ht))) u hu

/-- The fields of an exact document are exact. -/
theorem Exact.fields : ∀ {fs : List (Text × Value)}, (∀ t ∈ fieldTokens fs, t.isExact = true) →
    ∀ f ∈ fs, f.1.isSome = true ∧ f.2.Exact
  | [(key, v)], h, _, hf => by
      obtain rfl := List.mem_singleton.mp hf
      exact ⟨h (.string key) List.mem_cons_self, fun t ht => h t
        (List.mem_cons_of_mem _ (List.mem_cons_of_mem _ (List.mem_append_left _ ht)))⟩
  | (key, v) :: f :: fs, h, g, hg => by
      rcases List.mem_cons.mp hg with rfl | hg
      · exact ⟨h (.string key) List.mem_cons_self, fun t ht => h t
          (List.mem_cons_of_mem _ (List.mem_cons_of_mem _ (List.mem_append_left _ ht)))⟩
      · exact Exact.fields (fun t ht => h t (List.mem_cons_of_mem _ (List.mem_cons_of_mem _
          (List.mem_append_right _ (List.mem_cons_of_mem _ ht))))) g hg

mutual

/-- An exact document is well formed, and fit within as many levels as it nests. -/
theorem Exact.fit : ∀ {v : Value}, v.Exact →
    v.wellFormed = true ∧ ∀ levels, v.depth ≤ levels → v.strictWithin levels = true
  | .null, _ | .bool _, _ | .number (.natural _), _ | .number (.negative _), _ =>
      ⟨rfl, fun levels _ => by cases levels <;> rfl⟩
  | .number (.other _ _), h => absurd (h _ List.mem_cons_self) nofun
  | .malformed, h => absurd (h _ List.mem_cons_self) nofun
  | .string text, h => by
      have htext : text.isSome = true := h (.string text) List.mem_cons_self
      exact ⟨rfl, fun levels _ => by cases levels <;> exact htext⟩
  | .array items, h => by
      obtain ⟨hwell, hstrict⟩ := itemsFit fun v hv =>
        Exact.items (fun t ht => h t (List.mem_cons_of_mem _ ht)) v hv
      refine ⟨hwell, fun levels hdepth => ?_⟩
      cases levels with
      | zero => exact absurd hdepth (Nat.not_succ_le_zero _)
      | succ levels => exact hstrict levels (Nat.le_of_succ_le_succ hdepth)
  | .object fields, h => by
      obtain ⟨hwell, hstrict⟩ := fieldsFit fun f hf =>
        Exact.fields (fun t ht => h t (List.mem_cons_of_mem _ ht)) f hf
      refine ⟨hwell, fun levels hdepth => ?_⟩
      cases levels with
      | zero => exact absurd hdepth (Nat.not_succ_le_zero _)
      | succ levels => exact hstrict levels (Nat.le_of_succ_le_succ hdepth)

/-- By induction on the items. -/
theorem itemsFit : ∀ {vs : List Value}, (∀ v ∈ vs, v.Exact) → itemsWellFormed vs = true ∧
    ∀ levels, itemsDepth vs ≤ levels → vs.all (strictWithin levels) = true
  | [], _ => ⟨rfl, fun _ _ => rfl⟩
  | v :: vs, h => by
      obtain ⟨hwell, hstrict⟩ := Exact.fit (h v List.mem_cons_self)
      obtain ⟨hwells, hstricts⟩ := itemsFit fun w hw => h w (List.mem_cons_of_mem _ hw)
      refine ⟨by rw [itemsWellFormed, hwell, hwells]; rfl, fun levels hdepth => ?_⟩
      rw [itemsDepth, Nat.max_le] at hdepth
      rw [List.all_cons, hstrict levels hdepth.1, hstricts levels hdepth.2]
      rfl

theorem fieldsFit : ∀ {fs : List (Text × Value)}, (∀ f ∈ fs, f.1.isSome = true ∧ f.2.Exact) →
    fieldsWellFormed fs = true ∧ ∀ levels, fieldsDepth fs ≤ levels →
      (fs.all fun field => field.1.isSome && strictWithin levels field.2) = true
  | [], _ => ⟨rfl, fun _ _ => rfl⟩
  | (key, v) :: fs, h => by
      obtain ⟨hkey, hexact⟩ := h (key, v) List.mem_cons_self
      obtain ⟨hwell, hstrict⟩ := Exact.fit hexact
      obtain ⟨hwells, hstricts⟩ := fieldsFit fun f hf => h f (List.mem_cons_of_mem _ hf)
      refine ⟨by rw [fieldsWellFormed, hwell, hwells]; rfl, fun levels hdepth => ?_⟩
      rw [fieldsDepth, Nat.max_le] at hdepth
      rw [List.all_cons, hstrict levels hdepth.1, hstricts levels hdepth.2, hkey]
      rfl

end

end Value

namespace Value

mutual

/-- A plain document is exact. -/
theorem Exact.of_isPlain : ∀ {v : Value}, v.isPlain = true → v.Exact
  | .null, _ | .bool _, _ | .number (.natural _), _ => List.forall_mem_singleton.mpr rfl
  | .string _, h => List.forall_mem_singleton.mpr h
  | .array _, h => List.forall_mem_cons.mpr ⟨rfl, exact_itemTokens h⟩
  | .object _, h => List.forall_mem_cons.mpr ⟨rfl, exact_fieldTokens h⟩

theorem exact_itemTokens : ∀ {vs : List Value}, itemsPlain vs = true →
    ∀ t ∈ itemTokens vs, t.isExact = true
  | [], _ => List.forall_mem_singleton.mpr rfl
  | [v], h => by
      rw [itemsPlain, Bool.and_eq_true] at h
      exact List.forall_mem_append.mpr ⟨Exact.of_isPlain h.1, List.forall_mem_singleton.mpr rfl⟩
  | v :: w :: vs, h => by
      rw [itemsPlain, Bool.and_eq_true] at h
      exact List.forall_mem_append.mpr ⟨Exact.of_isPlain h.1,
        List.forall_mem_cons.mpr ⟨rfl, exact_itemTokens h.2⟩⟩

theorem exact_fieldTokens : ∀ {fs : List (Text × Value)}, fieldsPlain fs = true →
    ∀ t ∈ fieldTokens fs, t.isExact = true
  | [], _ => List.forall_mem_singleton.mpr rfl
  | [(key, v)], h => by
      rw [fieldsPlain, Bool.and_eq_true, Bool.and_eq_true] at h
      exact List.forall_mem_cons.mpr ⟨h.1.1, List.forall_mem_cons.mpr ⟨rfl,
        List.forall_mem_append.mpr ⟨Exact.of_isPlain h.1.2, List.forall_mem_singleton.mpr rfl⟩⟩⟩
  | (key, v) :: f :: fs, h => by
      rw [fieldsPlain, Bool.and_eq_true, Bool.and_eq_true] at h
      exact List.forall_mem_cons.mpr ⟨h.1.1, List.forall_mem_cons.mpr ⟨rfl,
        List.forall_mem_append.mpr ⟨Exact.of_isPlain h.1.2,
          List.forall_mem_cons.mpr ⟨rfl, exact_fieldTokens h.2⟩⟩⟩⟩

end

/-- The text that is printed is one of the document. -/
theorem Exact.spelledIn_print {v : Value} (h : v.Exact) : v.SpelledIn v.print := by
  rw [SpelledIn, v.toList_print]
  exact .printed h

end Value

/-- A text of a document is read to the document, and nothing stands behind it. -/
theorem read_spelled {v : Value} {text : String} (h : v.SpelledIn text) :
    read text = ⟨v, false⟩ := by
  have hfeed := Reader.feed_value v [] (Value.Exact.fit h.isExact).1
  unfold read ofTokens
  rw [tokens_spelled h]
  show ((Reader.reading .value []).feed v.toTokens).finish = _
  rw [hfeed]
  rfl

end ByteJump.Json
