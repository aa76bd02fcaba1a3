import ByteJump.Proofs.Digits

set_option autoImplicit false

/-!
# Decimals below a bound

Which texts are read as decimals, and why the others are not.  A decimal is an optional plus sign
and one or more digits, with any number of zeros in front.  What is too large is known as soon as
the digits read so far reach the bound, also where something else follows them.

Reading goes digit by digit with a value that is kept below the bound, so a text may be rejected
before all of it was seen.  The lemmas on `digitsBelow` are stated for what is left of a text
behind a front that was read; at the start the front is empty.  The four theorems at the end say
for each outcome of `decimalBelow` which texts have it, and together they cover every text.
-/

namespace ByteJump.Text

/-- The text is a decimal of the number. -/
inductive Decimal : List Char → Nat → Prop
  | plain {digits : List Char} (hne : digits ≠ []) (hdigits : ∀ c ∈ digits, c.isDigit = true) :
      Decimal digits (valueOf 10 digits)
  | signed {digits : List Char} (hne : digits ≠ []) (hdigits : ∀ c ∈ digits, c.isDigit = true) :
      Decimal ('+' :: digits) (valueOf 10 digits)

/-! ## Digits -/

/-- One more digit at the end. -/
theorem valueOf_push {front : List Char} {c : Char} (hc : c.isDigit = true) :
    valueOf 10 front * 10 + (c.toNat - '0'.toNat) = valueOf 10 (front ++ [c]) := by
  rw [valueOf_append_singleton, digitValue, if_pos hc, Nat.mul_comm]

/-- More digits make no smaller number. -/
theorem valueOf_le_append (front rest : List Char) :
    valueOf 10 front ≤ valueOf 10 (front ++ rest) := by
  induction rest generalizing front with
  | nil => exact Nat.le_of_eq (by rw [List.append_nil])
  | cons c rest ih =>
      calc valueOf 10 front
        _ ≤ 10 * valueOf 10 front + digitValue c := by omega
        _ = valueOf 10 (front ++ [c]) := (valueOf_append_singleton front c).symm
        _ ≤ valueOf 10 (front ++ [c] ++ rest) := ih (front ++ [c])
        _ = valueOf 10 (front ++ c :: rest) := by rw [List.append_assoc, List.singleton_append]

section Below

variable {bound : Nat} {front cs : List Char}

/-- One digit behind those of `front`. -/
theorem digitsBelow_cons {c : Char} (hc : c.isDigit = true) :
    digitsBelow bound (valueOf 10 front) (c :: cs) =
      if valueOf 10 (front ++ [c]) < bound then digitsBelow bound (valueOf 10 (front ++ [c])) cs
      else .error .tooLarge := by
  rw [digitsBelow, if_pos hc, valueOf_push hc]

/-- Behind the first digit a text is not empty any more. -/
theorem digitsBelow_ne_empty (value : Nat) : digitsBelow bound value cs ≠ .error .empty := by
  induction cs generalizing value with
  | nil => exact nofun
  | cons c cs ih =>
      rw [digitsBelow]
      split
      · dsimp only
        split
        · exact ih _
        · exact nofun
      · exact nofun

/-- Behind the digits of `front` digits are read to the value of all of them, if it is below the
bound. -/
theorem digitsBelow_eq_ok {n : Nat} (hfront : valueOf 10 front < bound) :
    digitsBelow bound (valueOf 10 front) cs = .ok n ↔
      (∀ c ∈ cs, c.isDigit = true) ∧ n = valueOf 10 (front ++ cs) ∧ n < bound := by
  induction cs generalizing front with
  | nil =>
      rw [digitsBelow, List.append_nil, Except.ok.injEq]
      constructor
      · rintro rfl
        exact ⟨nofun, rfl, hfront⟩
      · exact fun h => h.2.1.symm
  | cons c cs ih =>
      by_cases hc : c.isDigit = true
      · have hall : (∀ d ∈ c :: cs, d.isDigit = true) ↔ ∀ d ∈ cs, d.isDigit = true := by
          rw [List.forall_mem_cons, and_iff_right hc]
        have happend : front ++ c :: cs = front ++ [c] ++ cs := by
          rw [List.append_assoc, List.singleton_append]
        rw [digitsBelow_cons hc, hall, happend]
        split
        · rename_i hnext
          exact ih hnext
        · rename_i hnext
          refine ⟨nofun, fun h => ?_⟩
          have hmore := valueOf_le_append (front ++ [c]) cs
          omega
      · rw [digitsBelow, if_neg hc]
        exact ⟨nofun, fun h => absurd (h.1 c List.mem_cons_self) hc⟩

theorem ne_nil_of_bound_le {more : List Char} (hfront : valueOf 10 front < bound)
    (h : bound ≤ valueOf 10 (front ++ more)) : more ≠ [] := by
  rintro rfl
  rw [List.append_nil] at h
  omega

/-- Behind the digits of `front` the value gets too large where some more digits reach the bound,
whatever follows them. -/
theorem digitsBelow_eq_tooLarge (hfront : valueOf 10 front < bound) :
    digitsBelow bound (valueOf 10 front) cs = .error .tooLarge ↔
      ∃ more rest, cs = more ++ rest ∧ (∀ c ∈ more, c.isDigit = true) ∧
        bound ≤ valueOf 10 (front ++ more) := by
  induction cs generalizing front with
  | nil =>
      refine ⟨nofun, ?_⟩
      rintro ⟨more, rest, hcs, -, hmore⟩
      exact absurd (List.append_eq_nil_iff.mp hcs.symm).1 (ne_nil_of_bound_le hfront hmore)
  | cons c cs ih =>
      have happend (more : List Char) : front ++ c :: more = front ++ [c] ++ more := by
        rw [List.append_assoc, List.singleton_append]
      constructor
      · intro h
        by_cases hc : c.isDigit = true
        · rw [digitsBelow_cons hc] at h
          split at h
          · rename_i hnext
            obtain ⟨more, rest, rfl, hmore, hvalue⟩ := (ih hnext).mp h
            exact ⟨c :: more, rest, rfl, List.forall_mem_cons.mpr ⟨hc, hmore⟩,
              happend more ▸ hvalue⟩
          · rename_i hnext
            exact ⟨[c], cs, rfl, List.forall_mem_singleton.mpr hc, Nat.le_of_not_lt hnext⟩
        · rw [digitsBelow, if_neg hc] at h
          cases h
      · rintro ⟨more, rest, hcs, hmore, hvalue⟩
        obtain ⟨d, more, rfl⟩ := List.exists_cons_of_ne_nil (ne_nil_of_bound_le hfront hvalue)
        obtain ⟨rfl, rfl⟩ := List.cons.inj hcs
        obtain ⟨hc, hmore⟩ := List.forall_mem_cons.mp hmore
        rw [digitsBelow_cons hc]
        split
        · rename_i hnext
          exact (ih hnext).mpr ⟨more, rest, rfl, hmore, happend more ▸ hvalue⟩
        · rfl

end Below

/-! ## Decimals -/

/-- The text behind an optional plus sign. -/
def unsigned : List Char → List Char
  | '+' :: digits => digits
  | digits => digits

/-- Without a sign nothing is taken off. -/
theorem unsigned_eq_self {text : List Char} (h : ∀ digits, text ≠ '+' :: digits) :
    unsigned text = text := by
  unfold unsigned
  split
  · exact absurd rfl (h _)
  · rfl

theorem no_sign_of_digits {text : List Char} (h : ∀ c ∈ text, c.isDigit = true)
    (digits : List Char) : text ≠ '+' :: digits := by
  rintro rfl
  exact absurd (h '+' List.mem_cons_self) (by decide)

/-- Something behind what is left of a text is left too. -/
theorem unsigned_append {front : List Char} (h : unsigned front ≠ []) (rest : List Char) :
    unsigned (front ++ rest) = unsigned front ++ rest := by
  cases front with
  | nil => exact absurd rfl h
  | cons c front =>
      by_cases hc : c = '+'
      · subst hc
        rfl
      · simp [unsigned, hc]

/-- A decimal is digits with or without a plus sign. -/
theorem decimal_iff {text : List Char} {n : Nat} :
    Decimal text n ↔ unsigned text ≠ [] ∧ (∀ c ∈ unsigned text, c.isDigit = true) ∧
      n = valueOf 10 (unsigned text) := by
  constructor
  · intro h
    cases h with
    | plain hne hdigits =>
        rw [unsigned_eq_self (no_sign_of_digits hdigits)]
        exact ⟨hne, hdigits, rfl⟩
    | signed hne hdigits => exact ⟨hne, hdigits, rfl⟩
  · rintro ⟨hne, hdigits, rfl⟩
    by_cases hsign : ∃ digits, text = '+' :: digits
    · obtain ⟨digits, rfl⟩ := hsign
      exact .signed hne hdigits
    · rw [unsigned_eq_self fun digits h => hsign ⟨digits, h⟩] at hne hdigits ⊢
      exact .plain hne hdigits

/-- Once something follows the sign, only the digits count. -/
theorem decimalBelow_eq_digitsBelow {bound : Nat} {text : List Char} (h : unsigned text ≠ []) :
    decimalBelow bound text = digitsBelow bound (valueOf 10 []) (unsigned text) := by
  unfold decimalBelow
  split
  · exact absurd rfl h
  · exact absurd rfl h
  · rfl
  · rename_i hsign
    rw [unsigned_eq_self hsign]
    rfl

/-- A text with nothing behind the sign is no decimal, and no front of it is one. -/
theorem decimalBelow_of_unsigned_nil {bound : Nat} {text : List Char} (h : unsigned text = []) :
    decimalBelow bound text = .error (if text = [] then .empty else .invalidDigit) ∧
      ∀ front rest n, text = front ++ rest → ¬Decimal front n := by
  constructor
  · unfold unsigned at h
    split at h
    · subst h
      rfl
    · subst h
      rfl
  · rintro front rest n rfl hfront
    have hne := (decimal_iff.mp hfront).1
    rw [unsigned_append hne] at h
    exact hne (List.append_eq_nil_iff.mp h).1

variable {bound : Nat} {text : List Char}

/-- What is read is the decimal, and its value is below the bound. -/
theorem decimalBelow_eq_ok (hbound : 0 < bound) {n : Nat} :
    decimalBelow bound text = .ok n ↔ Decimal text n ∧ n < bound := by
  have hnothing : valueOf 10 [] < bound := hbound
  by_cases hrest : unsigned text = []
  · obtain ⟨hfault, hnone⟩ := decimalBelow_of_unsigned_nil  hrest
    rw [hfault]
    exact ⟨nofun, fun h => absurd h.1 (hnone text [] n (List.append_nil text).symm)⟩
  · rw [decimalBelow_eq_digitsBelow hrest, decimal_iff, and_iff_right hrest, and_assoc]
    exact digitsBelow_eq_ok hnothing

/-- A text is too large where a decimal in front of it reaches the bound. -/
theorem decimalBelow_eq_tooLarge (hbound : 0 < bound) :
    decimalBelow bound text = .error .tooLarge ↔
      ∃ front rest n, text = front ++ rest ∧ Decimal front n ∧ bound ≤ n := by
  have hnothing : valueOf 10 [] < bound := hbound
  by_cases hrest : unsigned text = []
  · obtain ⟨hfault, hnone⟩ := decimalBelow_of_unsigned_nil  hrest
    rw [hfault]
    refine ⟨fun h => ?_, ?_⟩
    · split at h <;> cases h
    · rintro ⟨front, rest, n, htext, hfront, -⟩
      exact absurd hfront (hnone front rest n htext)
  · rw [decimalBelow_eq_digitsBelow hrest]
    refine (digitsBelow_eq_tooLarge hnothing).trans ?_
    constructor
    · rintro ⟨digits, rest, htext, hdigits, hvalue⟩
      have hne : digits ≠ [] := ne_nil_of_bound_le hnothing hvalue
      by_cases hsign : ∃ others, text = '+' :: others
      · obtain ⟨others, rfl⟩ := hsign
        exact ⟨'+' :: digits, rest, _, congrArg (List.cons '+') htext, .signed hne hdigits, hvalue⟩
      · rw [unsigned_eq_self fun others h => hsign ⟨others, h⟩] at htext
        exact ⟨digits, rest, _, htext, .plain hne hdigits, hvalue⟩
    · rintro ⟨front, rest, n, rfl, hfront, hn⟩
      obtain ⟨hne, hdigits, rfl⟩ := decimal_iff.mp hfront
      exact ⟨unsigned front, rest, unsigned_append hne rest, hdigits, hn⟩

/-- Only the empty text is refused as empty. -/
theorem decimalBelow_eq_empty : decimalBelow bound text = .error .empty ↔ text = [] := by
  by_cases hrest : unsigned text = []
  · rw [(decimalBelow_of_unsigned_nil hrest).1]
    split
    · exact ⟨fun _ => ‹_›, fun _ => rfl⟩
    · exact ⟨nofun, fun h => absurd h ‹_›⟩
  · rw [decimalBelow_eq_digitsBelow hrest]
    refine ⟨fun h => absurd h (digitsBelow_ne_empty 0), ?_⟩
    rintro rfl
    exact absurd rfl hrest

/-- A text without another fault is no decimal, nor is one in front of it too large. -/
theorem decimalBelow_eq_invalidDigit (hbound : 0 < bound) :
    decimalBelow bound text = .error .invalidDigit ↔
      text ≠ [] ∧ (∀ n, ¬Decimal text n) ∧
        ∀ front rest n, text = front ++ rest → Decimal front n → n < bound := by
  constructor
  · intro h
    have hfits : ∀ front rest n, text = front ++ rest → Decimal front n → n < bound := by
      intro front rest n htext hfront
      refine Nat.lt_of_not_le fun hn => ?_
      have hlarge := (decimalBelow_eq_tooLarge hbound).mpr ⟨front, rest, n, htext, hfront, hn⟩
      rw [hlarge] at h
      cases h
    refine ⟨?_, fun n hn => ?_, hfits⟩
    · rintro rfl
      cases h
    · have hread := (decimalBelow_eq_ok hbound).mpr
        ⟨hn, hfits text [] n (List.append_nil text).symm hn⟩
      rw [hread] at h
      cases h
  · rintro ⟨hne, hnone, hfits⟩
    cases h : decimalBelow bound text with
    | ok n => exact absurd ((decimalBelow_eq_ok hbound).mp h).1 (hnone n)
    | error reason =>
        cases reason with
        | empty => exact absurd (decimalBelow_eq_empty.mp h) hne
        | invalidDigit => rfl
        | tooLarge =>
            obtain ⟨front, rest, n, htext, hfront, hn⟩ := (decimalBelow_eq_tooLarge hbound).mp h
            exact absurd (hfits front rest n htext hfront) (Nat.not_lt_of_le hn)

end ByteJump.Text
