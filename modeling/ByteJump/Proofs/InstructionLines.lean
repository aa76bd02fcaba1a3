import ByteJump.Image.Trace
import ByteJump.Proofs.Digits

set_option autoImplicit false

/-!
# Lines of instructions

A description of an address is read back to the address.  The words of a line that shows an
instruction tell its fields, also a successor that is left out, unless the line only says that the
instruction halts.

Reading back is shown by giving the reader: `readAddress` takes a description apart by its first
characters, and `readAddress_describe` says that it finds the address.  So two addresses with one
description are the same.  The same goes for a whole line, which is a row of words with a blank
between them, as no word has a blank in it.
-/

namespace ByteJump

open Text Memory

namespace Layout

/-- The tables stand where generated images have them. -/
structure HasTables (layout : Layout) : Prop where
  addTable : layout.addTable = Memory.addTable
  notTable : layout.notTable = Memory.notTable

variable {layout : Layout}

/-! ## Addresses

An address is described as a register with an offset, as an entry of a table, by a name, or in
hexadecimal digits. -/

/-- The address that a description stands for. -/
def readAddress : List Char → Nat
  | 'e' :: 'n' :: 't' :: 'r' :: 'y' :: '+' :: offset => valueOf 10 offset
  | 's' :: 'p' :: '+' :: offset => stackAddress + valueOf 10 offset
  | 'i' :: 'm' :: 'm' :: '+' :: offset => immediate + valueOf 10 offset
  | 'r' :: place =>
      (valueOf 10 (before '+' place) + 2) * registerSize + valueOf 10 (behind '+' place)
  | 'a' :: 'd' :: 'd' :: '[' :: place =>
      Memory.addTable + valueOf 10 (before ']' place) * 256 +
        valueOf 10 (before ']' (behind ']' place).tail)
  | 'n' :: 'o' :: 't' :: '[' :: place => Memory.notTable + valueOf 10 (before ']' place)
  | '0' :: 'x' :: digits => valueOf 16 digits
  | _ => 0

theorem readAddress_register (n offset : Nat) :
    readAddress ("r" ++ toString n ++ "+" ++ toString offset).toList =
      (n + 2) * registerSize + offset := by
  have hplus := notMem_decimal (c := '+') (by decide) n
  simp [readAddress, before_append hplus, behind_append hplus]

theorem readAddress_sum (m n : Nat) :
    readAddress ("add[" ++ toString m ++ "][" ++ toString n ++ "]").toList =
      Memory.addTable + m * 256 + n := by
  have hbracket := notMem_decimal (c := ']') (by decide)
  simp [readAddress, before_append (hbracket _), behind_append (hbracket _)]

theorem readAddress_not (n : Nat) :
    readAddress ("not[" ++ toString n ++ "]").toList = Memory.notTable + n := by
  have hbracket := notMem_decimal (c := ']') (by decide) n
  simp [readAddress, before_append hbracket]

/-- Digits are read back to the number. -/
theorem readAddress_hex (n : Nat) : readAddress (hex n).toList = n := by
  simp [readAddress, hex, hexDigits]

/-- A description is read back to the address. -/
theorem readAddress_describe (h : layout.HasTables) (address : Nat) :
    readAddress (layout.describe address).toList = address := by
  have himmediate : immediate = 16 := rfl
  have hregister : registerSize = 16 := rfl
  unfold describe
  rw [h.addTable, h.notTable]
  split
  · simp [readAddress]
  split
  · simp [readAddress]
    omega
  split
  · simp [readAddress]
    omega
  split
  · rw [readAddress_register, hregister]
    omega
  rename_i hbelow
  have haddress := Nat.add_sub_cancel' (Nat.le_of_not_lt hbelow)
  split
  · rw [readAddress_sum, Nat.add_assoc, Nat.div_add_mod', haddress]
  split
  · rename_i hinside
    rw [readAddress_not, Nat.add_sub_cancel' hinside.1]
  · exact readAddress_hex address

/-- What can be read back tells its address. -/
theorem describe_injective (h : layout.HasTables) : Function.Injective layout.describe :=
  fun a b heq => by rw [← readAddress_describe h a, heq, readAddress_describe h b]

/-- Different numbers have different digits. -/
theorem hex_injective : Function.Injective hex :=
  fun a b heq => by rw [← readAddress_hex a, heq, readAddress_hex b]

theorem valueOf_hex8 (n : Nat) : valueOf 16 (hex8 n).toList = n := by
  rw [hex8, String.toList_ofList, valueOf_zeros, valueOf_sixteen]

theorem hex8_injective : Function.Injective hex8 :=
  fun a b heq => by rw [← valueOf_hex8 a, heq, valueOf_hex8 b]

/-! ## Words of a line

A line starts with the address of the instruction and names its fields.  The successor is left out
where it is the instruction behind. -/

/-- The words of a line that shows an instruction and not only that it halts. -/
def words (layout : Layout) (address source destination next : Nat) : List String :=
  (hex8 address ++ ":") ::
    if source = 0 ∧ destination = 0 then ["jmp", hex next]
    else
      [layout.describe destination, "<-", layout.describe source] ++
        if next = advance address instructionSize then [] else ["", "->", hex next]

/-- A line is its words with a blank between any two. -/
theorem toList_showInstruction {address source destination next : Nat} (h : next ≠ address) :
    (layout.showInstruction address source destination next).toList =
      [' '].intercalate ((layout.words address source destination next).map String.toList) := by
  unfold showInstruction words
  rw [if_neg h]
  split
  · simp [List.intercalate]
  · split <;> simp [List.intercalate]

theorem space_notMem_hex (n : Nat) : ' ' ∉ (hex n).toList := by
  simp [hex, hexDigits, notMem_hexadecimal]

theorem space_notMem_hex8 (n : Nat) : ' ' ∉ (hex8 n).toList := by
  simp [hex8, notMem_hexadecimal]

/-- There is no blank in a description. -/
theorem space_notMem_describe (address : Nat) : ' ' ∉ (layout.describe address).toList := by
  have hdecimal := notMem_decimal (c := ' ') (by decide)
  unfold describe
  repeat' split
  all_goals simp [hdecimal, space_notMem_hex]

/-- There is no blank in a word. -/
theorem space_notMem_words {address source destination next : Nat} :
    ∀ word ∈ layout.words address source destination next, ' ' ∉ word.toList := by
  unfold words
  split
  · simp [space_notMem_hex8, space_notMem_hex]
  · split <;> simp [space_notMem_hex8, space_notMem_hex, space_notMem_describe]

/-- The words are what spaces separate. -/
theorem splitOn_showInstruction {address source destination next : Nat} (h : next ≠ address) :
    (layout.showInstruction address source destination next).toList.splitOn ' ' =
      (layout.words address source destination next).map String.toList := by
  rw [toList_showInstruction h, List.splitOn_intercalate]
  · intro word hword
    obtain ⟨word, hmem, rfl⟩ := List.mem_map.mp hword
    exact space_notMem_words word hmem
  · simp [words]

/-- Of the words, a line that only jumps has three, one that goes on behind its instruction four,
and any other line seven. -/
theorem words_injective (h : layout.HasTables)
    {address source destination next address' source' destination' next' : Nat}
    (heq : layout.words address source destination next =
      layout.words address' source' destination' next') :
    address = address' ∧ source = source' ∧ destination = destination' ∧ next = next' := by
  unfold words at heq
  obtain ⟨hfront, hrest⟩ := List.cons.inj heq
  have haddress : address = address' := hex8_injective (by simpa using hfront)
  subst haddress
  refine ⟨rfl, ?_⟩
  by_cases hjump : source = 0 ∧ destination = 0 <;>
    by_cases hjump' : source' = 0 ∧ destination' = 0
  · rw [if_pos hjump, if_pos hjump', List.cons.injEq, List.cons.injEq] at hrest
    exact ⟨hjump.1.trans hjump'.1.symm, hjump.2.trans hjump'.2.symm, hex_injective hrest.2.1⟩
  · rw [if_pos hjump, if_neg hjump'] at hrest
    simp at hrest
  · rw [if_neg hjump, if_pos hjump'] at hrest
    simp at hrest
  · rw [if_neg hjump, if_neg hjump'] at hrest
    obtain ⟨hplaces, hflow⟩ := List.append_inj hrest rfl
    rw [List.cons.injEq, List.cons.injEq, List.cons.injEq] at hplaces
    refine ⟨describe_injective h hplaces.2.2.1, describe_injective h hplaces.1, ?_⟩
    by_cases hbehind : next = advance address instructionSize <;>
      by_cases hbehind' : next' = advance address instructionSize
    · exact hbehind.trans hbehind'.symm
    · simp [hbehind, hbehind'] at hflow
    · simp [hbehind, hbehind'] at hflow
    · simpa [hbehind, hbehind', hex_injective.eq_iff] using hflow

/-- A line that does not say that the instruction halts tells the instruction. -/
theorem showInstruction_injective (h : layout.HasTables)
    {address source destination next address' source' destination' next' : Nat}
    (hnext : next ≠ address) (hnext' : next' ≠ address')
    (heq : layout.showInstruction address source destination next =
      layout.showInstruction address' source' destination' next') :
    address = address' ∧ source = source' ∧ destination = destination' ∧ next = next' := by
  have hwords := @splitOn_showInstruction layout address source destination next hnext
  rw [heq, splitOn_showInstruction hnext'] at hwords
  exact words_injective h
    ((List.map_injective_iff.mpr fun _ _ => String.toList_injective) hwords.symm)

end Layout
end ByteJump
