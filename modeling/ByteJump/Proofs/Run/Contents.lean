import ByteJump.Machine
import Mathlib.Tactic.Ring

set_option autoImplicit false

/-!
# Contents of memory

A memory is seen as a function from addresses to bytes.  Of a machine that goes on, one step says
which byte was copied where and what comes next; several steps make a run.  A run of the machine
follows the steps as long as its limit lets it.
-/

namespace ByteJump

/-- The byte at every address. -/
abbrev Contents := Nat → UInt8

namespace Contents

/-- The number in the `width` bytes at an address. -/
def number (c : Contents) (address : Nat) : Nat → Nat
  | 0 => 0
  | width + 1 => (c address).toNat + 256 * number c (address + 1) width

/-- One byte changed. -/
def set (c : Contents) (address : Nat) (byte : UInt8) : Contents := fun other =>
  if other = address then byte else c other

/-- The low bytes of a number written one behind the other. -/
def write (c : Contents) (address : Nat) : Nat → Nat → Contents
  | 0, _ => c
  | width + 1, value =>
      write (c.set address (UInt8.ofNat (value % 256))) (address + 1) width (value / 256)

/-! ## Numbers -/

theorem number_congr {c d : Contents} : ∀ {width a b : Nat},
    (∀ i < width, c (a + i) = d (b + i)) → c.number a width = d.number b width
  | 0, _, _, _ => rfl
  | width + 1, a, b, h => by
      have hrest : c.number (a + 1) width = d.number (b + 1) width := by
        refine number_congr fun i hi => ?_
        have hbyte := h (i + 1) (by omega)
        rwa [Nat.add_comm i 1, ← Nat.add_assoc, ← Nat.add_assoc] at hbyte
      have hfirst := h 0 (by omega)
      rw [Nat.add_zero, Nat.add_zero] at hfirst
      rw [number, number, hfirst, hrest]

theorem number_lt (c : Contents) : ∀ (width a : Nat), c.number a width < 256 ^ width
  | 0, _ => by simp [number]
  | width + 1, a => by
      have hrest := number_lt c width (a + 1)
      have hbyte := (c a).toNat_lt
      rw [number, Nat.pow_succ]
      omega

/-- The number that is spelled by given bytes. -/
theorem number_eq_toNat {c : Contents} : ∀ {data : List UInt8} {a : Nat},
    (∀ i (h : i < data.length), c (a + i) = data[i]) → c.number a data.length = Bytes.toNat data
  | [], _, _ => rfl
  | byte :: data, a, h => by
      have hrest : c.number (a + 1) data.length = Bytes.toNat data := by
        refine number_eq_toNat fun i hi => ?_
        have hbyte := h (i + 1) (by simpa using hi)
        rw [Nat.add_assoc, Nat.add_comm 1 i]
        exact hbyte
      have hfirst := h 0 (by simp)
      rw [Nat.add_zero] at hfirst
      rw [List.length_cons, number, hfirst, hrest]
      rfl

/-- A longer number, split into its low bytes and the rest. -/
theorem number_add (c : Contents) : ∀ (low high a : Nat),
    c.number a (low + high) = c.number a low + 256 ^ low * c.number (a + low) high
  | 0, high, a => by simp [number]
  | low + 1, high, a => by
      have hrest := number_add c low high (a + 1)
      rw [Nat.add_right_comm, number, number, hrest, Nat.pow_succ, Nat.add_assoc a 1 low,
        Nat.add_comm 1 low]
      ring

/-- A number is made of its low bytes and of those behind them. -/
theorem number_split (c : Contents) {low count : Nat} (h : low ≤ count) (a : Nat) :
    c.number a count = c.number a low + 256 ^ low * c.number (a + low) (count - low) := by
  rw [← number_add, Nat.add_sub_cancel' h]

/-- The low bytes of a number. -/
theorem number_low (c : Contents) {low count : Nat} (h : low ≤ count) (a : Nat) :
    c.number a low = c.number a count % 256 ^ low := by
  rw [c.number_split h, Nat.add_mul_mod_self_left, Nat.mod_eq_of_lt (number_lt c low a)]

/-! ## Changes -/

@[simp] theorem set_self (c : Contents) (a : Nat) (v : UInt8) : c.set a v a = v := if_pos rfl

theorem set_of_ne {c : Contents} {a b : Nat} {v : UInt8} (h : b ≠ a) : c.set a v b = c b :=
  if_neg h

/-- A byte stored where it is already. -/
theorem set_same (c : Contents) (a : Nat) : c.set a (c a) = c := by
  funext b
  by_cases h : b = a
  · rw [h, set_self]
  · exact set_of_ne h

/-- Nothing is written outside the bytes. -/
theorem write_outside {a : Nat} : ∀ {width b value : Nat} {c : Contents},
    a < b ∨ b + width ≤ a → c.write b width value a = c a
  | 0, _, _, _, _ => rfl
  | width + 1, b, value, c, h => by
      rw [write, write_outside (by omega), set_of_ne (by omega)]

theorem number_write : ∀ {width b value : Nat} {c : Contents},
    (c.write b width value).number b width = value % 256 ^ width
  | 0, _, _, _ => by simp [number, Nat.mod_one]
  | width + 1, b, value, c => by
      have hfirst : c.write b (width + 1) value b = UInt8.ofNat (value % 256) := by
        rw [write, write_outside (by omega), set_self]
      have hrest : (c.write b (width + 1) value).number (b + 1) width =
          value / 256 % 256 ^ width := by
        rw [write, number_write]
      rw [number, hfirst, hrest, Nat.pow_succ, Nat.mul_comm _ 256, Nat.mod_mul]
      simp

end Contents

end ByteJump
