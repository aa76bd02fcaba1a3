import ByteJump.Proofs.Run.Primitives

set_option autoImplicit false

/-!
# Lookups in tables

A byte copied into the low byte of an address picks an entry of a table, and two bytes pick an
entry of the addition table.  Counting zeros this way, a sum that starts at `256 - 8 * width` comes
to zero exactly when all bytes are.

Arithmetic on this machine is done by reading tables, with the operands as parts of the address:
the entry for one byte stands at the byte, the entry for two bytes at the first one times 256 plus
the second.  The first section computes the addresses that come about when bytes are copied into
the field of an instruction.  The others say what a look-up puts at its destination, and what a
row of them does: logical not adds up the entries for all bytes of a number.
-/

namespace ByteJump

namespace Linked

open Memory Assembly

/-! ## Fields with bytes in them

Bytes that are copied into a field replace those of the address it was laid down with, from the
lowest one on. -/

/-- The bytes of a word. -/
def wordContents (n : Nat) : Contents := fun i => (wordBytes n).getD i 0

/-- Eight bytes hold a number up to the size of the address space. -/
theorem number_wordContents (n : Nat) : (wordContents n).number 0 addressSize = n % addressSpace := by
  refine number_wordBytes fun i hi => ?_
  unfold wordContents
  rw [Nat.zero_add]
  simp [hi]

theorem wordContents_zero (n : Nat) : (wordContents n 0).toNat = n % 256 := by
  simp [wordContents, wordBytes, addressSize, Bytes.ofNat]

variable {d : Contents} {fields : List (Nat × Nat)}

/-- A byte of a field into which nothing was copied. -/
theorem patchedField_of_none {field value i : Nat} (h : ∀ f ∈ fields, f.2 ≠ field + i) :
    patchedField d fields field value i = wordContents value i := by
  have hnone : (fields.find? fun other => other.2 = field + i) = none := by
    refine List.find?_eq_none.mpr fun f hf => ?_
    simpa using h f hf
  unfold patchedField
  rw [hnone]
  rfl

/-- A field into which nothing was copied. -/
theorem number_of_none {field value : Nat} (h : ∀ f ∈ fields, ∀ i < addressSize, f.2 ≠ field + i) :
    (patchedField d fields field value).number 0 addressSize = value % addressSpace := by
  rw [← number_wordContents]
  refine Contents.number_congr fun i hi => ?_
  rw [Nat.zero_add]
  exact patchedField_of_none fun f hf => h f hf i hi

/-- A word of which only the low byte may have changed. -/
theorem number_of_rest {c : Contents} {a value : Nat}
    (h : ∀ i < 7, c (a + 1 + i) = wordContents value (1 + i)) :
    c.number a addressSize = (c a).toNat + value % addressSpace / 256 * 256 := by
  have hrest : c.number (a + 1) 7 = (wordContents value).number 1 7 := Contents.number_congr h
  have hword := number_wordContents value
  have hzero := wordContents_zero value
  have hspace : addressSpace = 256 * 2 ^ 56 := by decide
  have hmod : value % addressSpace % 256 = value % 256 := by
    rw [hspace]
    exact Nat.mod_mul_right_mod value 256 (2 ^ 56)
  simp only [addressSize] at hword ⊢
  rw [Contents.number] at hword ⊢
  rw [Nat.zero_add] at hword
  rw [hrest]
  omega

/-- A field into whose low byte a byte was copied. -/
theorem number_lowByte (x value : Nat) :
    (patchedField d [(x, sourceField)] sourceField value).number 0 addressSize =
      (d x).toNat + value % addressSpace / 256 * 256 := by
  refine number_of_rest fun i _ => patchedField_of_none fun f hf => ?_
  obtain rfl := List.mem_singleton.mp hf
  simp only [sourceField]
  omega

/-- The address of the addition table into whose two low bytes bytes were copied. -/
theorem number_lowBytes (x y : Nat) :
    (patchedField d [(x, sourceField + 1), (y, sourceField)] sourceField addTable).number 0
      addressSize = addTable + (d x).toNat * 256 + (d y).toNat := by
  have hrest : (patchedField d [(x, sourceField + 1), (y, sourceField)] sourceField
      addTable).number 2 6 = (wordContents addTable).number 2 6 := by
    refine Contents.number_congr fun i _ => patchedField_of_none fun f hf => ?_
    simp only [List.mem_cons, List.not_mem_nil, or_false] at hf
    rcases hf with rfl | rfl <;> simp only [sourceField] <;> omega
  have hword : (wordContents addTable).number 2 6 = 1 := by decide
  have hlow : patchedField d [(x, sourceField + 1), (y, sourceField)] sourceField addTable 0 =
      d y := rfl
  have hhigh : patchedField d [(x, sourceField + 1), (y, sourceField)] sourceField addTable 1 =
      d x := rfl
  simp only [addressSize]
  rw [Contents.number, Contents.number, Nat.zero_add, hlow, hhigh, hrest, hword]
  simp only [addTable]
  omega

/-- A field into which a whole word was copied. -/
theorem number_wholeField (source field value : Nat) :
    (patchedField d (Emit.wholeField source field) field value).number 0 addressSize =
      d.number source addressSize := by
  refine Contents.number_congr fun i hi => ?_
  have hfind : ((Emit.wholeField source field).find? fun other => other.2 = field + i) =
      some (source + i, field + i) := by
    simp only [addressSize] at hi
    unfold Emit.wholeField addressSize
    rcases i with _ | _ | _ | _ | _ | _ | _ | _ | i <;> first | omega | simp [List.range, List.range.loop]
  unfold patchedField
  rw [Nat.zero_add, hfind]

end Linked

namespace Emit

open Assembly Memory Linked

variable (L : Linked) {s : State}

/-! ## One lookup -/

/-- What the logical-not page holds for a byte. -/
def notByte (b : UInt8) : UInt8 := if b = 0 then UInt8.ofNat Constant.truth else 0

/-- One byte is replaced by 8 if it is zero and by 0 otherwise. -/
theorem notLookup_exec {x destination : Nat} (hx : x < addTable) (h : destination < addTable) :
    Exec (patched [(x, sourceField)] notTable destination) s fun _ t =>
      Effect L s t fun d => d.set destination (notByte (d x)) := by
  refine (patched_exec L (by simp [hx, sourceField, nextField]) (by simp) h).mono ?_
  intro _ t _ _ hpatched
  obtain ⟨hkept, hmark, hdoes⟩ := hpatched
  refine ⟨hkept, hmark, fun d => ?_⟩
  have hbyte := (d x).toNat_lt
  have htable : notTable % addressSpace / 256 * 256 = notTable := by decide
  have hsource := number_lowByte (d := d) x notTable
  have hdestination : (patchedField d [(x, sourceField)] destinationField destination).number 0
      addressSize = destination := by
    rw [number_of_none]
    · exact Nat.mod_eq_of_lt (Nat.lt_trans h (by decide))
    · intro f hf i hi
      obtain rfl := List.mem_singleton.mp hf
      simp only [sourceField, destinationField]
      omega
  rw [htable] at hsource
  have hrange : addTable ≤ (d x).toNat + notTable ∧ (d x).toNat + notTable < codeStart := by
    simp only [addTable, notTable, codeStart]
    omega
  refine (hdoes d _ _ hsource hdestination (Or.inr hrange) (isData_of_lt h)).mono ?_
  rintro - _ rfl
  have hstop := codeStart_le_stop (L := L)
  unfold Linked.read
  rw [if_pos ⟨hrange.1, by omega⟩, Nat.add_comm, L.nots _ hbyte]
  unfold notByte
  simp only [← UInt8.toNat_inj, UInt8.toNat_zero]

/-- Two bytes are replaced by the low byte of their sum. -/
theorem sumLookup_exec {x y destination : Nat} (hx : x < addTable) (hy : y < addTable)
    (h : destination < addTable) :
    Exec (patched [(x, sourceField + 1), (y, sourceField)] addTable destination) s fun _ t =>
      Effect L s t fun d => d.set destination (d x + d y) := by
  refine (patched_exec L (by simp [hx, hy, sourceField, nextField]) (by simp [sourceField]) h).mono ?_
  intro _ t _ _ hpatched
  obtain ⟨hkept, hmark, hdoes⟩ := hpatched
  refine ⟨hkept, hmark, fun d => ?_⟩
  have hbyteX := (d x).toNat_lt
  have hbyteY := (d y).toNat_lt
  have hsource := number_lowBytes (d := d) x y
  have hdestination : (patchedField d [(x, sourceField + 1), (y, sourceField)] destinationField
      destination).number 0 addressSize = destination := by
    rw [number_of_none]
    · exact Nat.mod_eq_of_lt (Nat.lt_trans h (by decide))
    · intro f hf i hi
      simp only [List.mem_cons, List.not_mem_nil, or_false] at hf
      rcases hf with rfl | rfl <;> simp only [sourceField, destinationField] <;> omega
  have hrange : addTable ≤ addTable + (d x).toNat * 256 + (d y).toNat ∧
      addTable + (d x).toNat * 256 + (d y).toNat < codeStart := by
    simp only [addTable, codeStart]
    omega
  refine (hdoes d _ _ hsource hdestination (Or.inr hrange) (isData_of_lt h)).mono ?_
  rintro - _ rfl
  have hstop := codeStart_le_stop (L := L)
  unfold Linked.read
  rw [if_pos ⟨hrange.1, by omega⟩, L.sums _ _ hbyteX hbyteY, UInt8.ofNat_add, UInt8.ofNat_toNat,
    UInt8.ofNat_toNat]

/-! ## Counting zeros -/

/-- How many of `count` bytes are zero. -/
def zeros (d : Contents) (address : Nat) : Nat → Nat
  | 0 => 0
  | count + 1 => (if d address = 0 then 1 else 0) + zeros d (address + 1) count

/-- No more bytes are zero than there are. -/
theorem zeros_le (d : Contents) : ∀ (count address : Nat), zeros d address count ≤ count
  | 0, _ => Nat.le_refl _
  | count + 1, address => by
      have hrest := zeros_le d count (address + 1)
      rw [zeros]
      split <;> omega

/-- All bytes of a number are zero exactly if the number is. -/
theorem zeros_eq_iff (d : Contents) : ∀ (count address : Nat),
    zeros d address count = count ↔ d.number address count = 0
  | 0, _ => by simp [zeros, Contents.number]
  | count + 1, address => by
      have hrest := zeros_eq_iff d count (address + 1)
      have hle := zeros_le d count (address + 1)
      have hbyte : d address = 0 ↔ (d address).toNat = 0 := by
        rw [← UInt8.toNat_inj]
        rfl
      rw [zeros, Contents.number]
      split
      · rename_i hzero
        have hzero' := hbyte.mp hzero
        omega
      · rename_i hzero
        have hzero' : (d address).toNat ≠ 0 := fun h => hzero (hbyte.mpr h)
        omega

theorem zeros_congr {d d' : Contents} : ∀ {count address : Nat},
    (∀ i < count, d' (address + i) = d (address + i)) → zeros d' address count = zeros d address count
  | 0, _, _ => rfl
  | count + 1, address, h => by
      have hrest : zeros d' (address + 1) count = zeros d (address + 1) count := by
        refine zeros_congr fun i hi => ?_
        have hbyte := h (i + 1) (by omega)
        rwa [Nat.add_comm i 1, ← Nat.add_assoc] at hbyte
      have hfirst := h 0 (by omega)
      rw [Nat.add_zero] at hfirst
      rw [zeros, zeros, hfirst, hrest]

/-- Eight was added to the byte at `total` for every zero, and the byte at `flag` may be anything. -/
def Counted (total flag n : Nat) (d d' : Contents) : Prop :=
  d' total = d total + UInt8.ofNat (8 * n) ∧ ∀ a, a ≠ total → a ≠ flag → d' a = d a

/-- By induction on the number of bytes; each takes two look-ups. -/
theorem countZeros_exec {total flag : Nat} (htotal : total < addTable) (hflag : flag < addTable)
    (hne : flag ≠ total) (hlow : immediate + registerSize ≤ total)
    (hlow' : immediate + registerSize ≤ flag) : ∀ {count i : Nat} {s : State},
    i + count ≤ registerSize →
    Exec (countZeros total flag count i) s fun _ t => Kept s t ∧ t.mark = s.mark ∧
      ∀ d, Does L s t d (Counted total flag (zeros d (immediate + i) count) d)
  | 0, i, s, _ => by
      rw [countZeros]
      refine Exec.pure ⟨.refl s, rfl, fun d => .nothing rfl ⟨?_, fun _ _ _ => rfl⟩⟩
      simp [zeros]
  | count + 1, i, s, h => by
      have himmediate : immediate + i < addTable := by omega
      rw [countZeros]
      refine (notLookup_exec L himmediate hflag).bind fun _ u _ _ hnot => ?_
      refine (sumLookup_exec L htotal hflag htotal).bind fun _ w _ hgrows hsum => ?_
      refine (countZeros_exec htotal hflag hne hlow hlow' (by omega)).mono ?_
      intro _ t _ hgrows' hrest
      obtain ⟨hkept, hmark, hdoes⟩ := hrest
      have hboth := hnot.trans hgrows hsum
      refine ⟨hboth.kept.trans hkept, hmark.trans hboth.mark, fun d => ?_⟩
      refine (hboth.does d).trans hgrows' ?_
      rintro _ rfl
      refine (hdoes _).mono fun _ d' hd' => ?_
      obtain ⟨htotal', hother⟩ := hd'
      have hzeros : zeros ((d.set flag (notByte (d (immediate + i)))).set total
          ((d.set flag (notByte (d (immediate + i)))) total +
            (d.set flag (notByte (d (immediate + i)))) flag)) (immediate + (i + 1)) count =
          zeros d (immediate + (i + 1)) count := by
        refine zeros_congr fun j hj => ?_
        rw [Contents.set_of_ne (by omega), Contents.set_of_ne (by omega)]
      rw [hzeros, Contents.set_self, Contents.set_self, Contents.set_of_ne (Ne.symm hne)] at htotal'
      refine ⟨?_, fun a ha ha' => ?_⟩
      · rw [htotal', zeros, ← Nat.add_assoc immediate i 1]
        unfold notByte
        split
        · rw [Nat.mul_add, UInt8.ofNat_add, UInt8.add_assoc]
          rfl
        · simp
      · rw [hother a ha ha', Contents.set_of_ne ha, Contents.set_of_ne ha']

end Emit

end ByteJump
