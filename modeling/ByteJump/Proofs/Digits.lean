import ByteJump.Text.Number
import Mathlib.Data.List.Basic

set_option autoImplicit false

/-!
# Digits

A number is read back from its digits, also from digits with zeros in front.  The digits of a number
do not start with a zero, unless the number is zero, and text around a separator is told apart.
-/

namespace ByteJump.Text

variable {base : Nat}

/-! ## Single digits -/

/-- The value of a digit; letters follow the ten decimal ones. -/
def digitValue (c : Char) : Nat :=
  if c.isDigit then c.toNat - '0'.toNat else c.toNat - 'a'.toNat + 10

theorem digitValue_digitChar : ∀ d < 16, digitValue d.digitChar = d := by decide

/-! ## Digits of a number -/

/-- The number with the given digits, the most significant one first. -/
def valueOf (base : Nat) (digits : List Char) : Nat :=
  digits.foldl (fun value c => base * value + digitValue c) 0

theorem valueOf_append_singleton (digits : List Char) (c : Char) :
    valueOf base (digits ++ [c]) = base * valueOf base digits + digitValue c := by
  simp [valueOf]

/-- A number is read back from its digits. -/
theorem valueOf_toDigits (hbase : 1 < base) (hbase' : base ≤ 16) (n : Nat) :
    valueOf base (Nat.toDigits base n) = n := by
  induction n using Nat.strongRecOn with
  | ind n ih =>
      rw [Nat.toDigits_eq_if hbase]
      split
      · rename_i hsmall
        have hvalue := digitValue_digitChar n (by omega)
        simp [valueOf, hvalue]
      · rename_i hlarge
        have hless : n / base < n := Nat.div_lt_self (by omega) hbase
        have hdigit : n % base < base := Nat.mod_lt n (by omega)
        rw [valueOf_append_singleton, ih _ hless, digitValue_digitChar _ (by omega)]
        exact Nat.div_add_mod n base

/-- Zeros in front do not count. -/
theorem valueOf_zeros (count : Nat) (digits : List Char) :
    valueOf base (List.replicate count '0' ++ digits) = valueOf base digits := by
  have hzeros : (List.replicate count '0').foldl
      (fun value c => base * value + digitValue c) 0 = 0 := by
    induction count with
    | zero => rfl
    | succ count ih => simpa [List.replicate_succ, digitValue] using ih
  rw [valueOf, List.foldl_append, hzeros]
  rfl

@[simp] theorem valueOf_ten (n : Nat) : valueOf 10 (Nat.toDigits 10 n) = n :=
  valueOf_toDigits (by decide) (by decide) n

@[simp] theorem valueOf_sixteen (n : Nat) : valueOf 16 (Nat.toDigits 16 n) = n :=
  valueOf_toDigits (by decide) (by decide) n

theorem exists_digitChar_of_mem (hbase : 1 < base) (hbase' : base ≤ 16) {n : Nat} {c : Char}
    (h : c ∈ Nat.toDigits base n) : ∃ d < 16, c = d.digitChar := by
  induction n using Nat.strongRecOn with
  | ind n ih =>
      rw [Nat.toDigits_eq_if hbase] at h
      split at h
      · rename_i hsmall
        exact ⟨n, by omega, List.mem_singleton.mp h⟩
      · rename_i hlarge
        rcases List.mem_append.mp h with h | h
        · exact ih _ (Nat.div_lt_self (by omega) hbase) h
        · have hdigit : n % base < base := Nat.mod_lt n (by omega)
          exact ⟨n % base, by omega, List.mem_singleton.mp h⟩

/-- No number is spelled with a character that is no digit. -/
theorem notMem_toDigits (hbase : 1 < base) (hbase' : base ≤ 16) {c : Char}
    (hc : ∀ d < 16, d.digitChar ≠ c) (n : Nat) : c ∉ Nat.toDigits base n := by
  intro hmem
  obtain ⟨d, hd, heq⟩ := exists_digitChar_of_mem hbase hbase' hmem
  exact hc d hd heq.symm

theorem notMem_decimal {c : Char} (hc : ∀ d < 16, d.digitChar ≠ c) (n : Nat) :
    c ∉ Nat.toDigits 10 n :=
  notMem_toDigits (by decide) (by decide) hc n

theorem notMem_hexadecimal {c : Char} (hc : ∀ d < 16, d.digitChar ≠ c) (n : Nat) :
    c ∉ Nat.toDigits 16 n :=
  notMem_toDigits (by decide) (by decide) hc n

/-- Only zero starts with a zero. -/
theorem head?_toDigits (hbase : 1 < base) (hbase' : base ≤ 16) {n : Nat} (hn : 0 < n) :
    (Nat.toDigits base n).head? ≠ some '0' := by
  induction n using Nat.strongRecOn with
  | ind n ih =>
      rw [Nat.toDigits_eq_if hbase]
      split
      · rename_i hsmall
        intro hzero
        have hvalue := digitValue_digitChar n (by omega)
        rw [Option.some.inj hzero, show digitValue '0' = 0 from rfl] at hvalue
        omega
      · rename_i hlarge
        have hfront := ih (n / base) (Nat.div_lt_self hn hbase) (Nat.div_pos (by omega) (by omega))
        rw [List.head?_append]
        cases hdigits : (Nat.toDigits base (n / base)).head? with
        | none => exact absurd (List.head?_eq_none_iff.mp hdigits) Nat.toDigits_ne_nil
        | some c =>
            rw [hdigits] at hfront
            exact hfront

/-! ## Separators -/

/-- What stands in front of the first separator. -/
def before (separator : Char) (text : List Char) : List Char :=
  text.takeWhile fun c => c != separator

/-- What stands behind the first separator. -/
def behind (separator : Char) (text : List Char) : List Char :=
  (text.dropWhile fun c => c != separator).tail

theorem before_append {separator : Char} {front : List Char} (h : separator ∉ front)
    (rest : List Char) : before separator (front ++ separator :: rest) = front := by
  have hfront : ∀ c ∈ front, (c != separator) = true := fun c hc =>
    bne_iff_ne.mpr fun heq => h (heq ▸ hc)
  rw [before, List.takeWhile_append_of_pos hfront, List.takeWhile_cons_of_neg (by simp),
    List.append_nil]

theorem behind_append {separator : Char} {front : List Char} (h : separator ∉ front)
    (rest : List Char) : behind separator (front ++ separator :: rest) = rest := by
  have hfront : ∀ c ∈ front, (c != separator) = true := fun c hc =>
    bne_iff_ne.mpr fun heq => h (heq ▸ hc)
  rw [behind, List.dropWhile_append_of_pos hfront, List.dropWhile_cons_of_neg (by simp),
    List.tail_cons]

end ByteJump.Text
