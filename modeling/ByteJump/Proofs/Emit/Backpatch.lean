import ByteJump.Proofs.Emit.Patches
import ByteJump.Proofs.Results

set_option autoImplicit false

/-!
# Bytes behind patching

The words that are patched stand one behind the other.  So each of them holds its value in the end,
and all other bytes are those that were laid down.

Patches are written in order into a buffer, each as a word of eight bytes.  As they do not
overlap, a later one does not destroy an earlier one, and the result can be described without an
order: `Patched` says of each patch that its word is there, and of each byte outside of all
patches that it is the old one.  The induction is on the list of patches, with those done so far
in front.
-/

namespace ByteJump

namespace Assembly

open Memory

/-! ## Places of patches

Patches come from the pieces in order, so they stand in the order of their addresses. -/

/-- The patches of both rows, the second ones from where the first row ends. -/
theorem patchesFrom_append (before behind : List Piece) : ∀ start : Nat,
    patchesFrom start (before ++ behind) =
      patchesFrom start before ++ patchesFrom (start + size before) behind := by
  induction before with
  | nil => exact fun start => by simp [patchesFrom, size]
  | cons piece before ih =>
      intro start
      have hsize : size (piece :: before) = piece.size + size before := by simp [size]
      rw [List.cons_append, patchesFrom, ih, patchesFrom, hsize, List.append_assoc, Nat.add_assoc]

/-- The words of two patches, the first of which ends where the second one starts or in front of
it. -/
def Patch.InFrontOf (x y : Patch) : Prop := x.address + addressSize ≤ y.address

theorem Piece.pairwise_patches (piece : Piece) (start : Nat) :
    (piece.patches start).Pairwise Patch.InFrontOf := by
  unfold patches
  split
  · split
    · exact List.pairwise_singleton _ _
    · exact .nil
  · exact .nil

/-- Patches stand one behind the other. -/
theorem pairwise_patchesFrom (pieces : List Piece) : ∀ start : Nat,
    (patchesFrom start pieces).Pairwise Patch.InFrontOf := by
  induction pieces with
  | nil => exact fun start => .nil
  | cons piece pieces ih =>
      intro start
      refine List.pairwise_append.mpr ⟨piece.pairwise_patches start, ih _, fun x hx y hy => ?_⟩
      have hfirst := (piece.mem_patches hx).2
      have hsecond := (mem_patchesFrom hy).1
      exact Nat.le_trans hfirst hsecond

/-! ## Writing a word -/

section Write

variable {buffer : List UInt8} {address value i : Nat}

/-- The buffer keeps its length. -/
theorem length_write (h : address + addressSize ≤ buffer.length) :
    (write buffer address value).length = buffer.length := by
  simp only [write, List.length_append, List.length_take, List.length_drop, length_wordBytes]
  omega

/-- A byte in front of the word stays. -/
theorem write_before (h : address + addressSize ≤ buffer.length) (hi : i < address) :
    (write buffer address value)[i]? = buffer[i]? := by
  have htake : (buffer.take address).length = address := by
    rw [List.length_take]
    omega
  rw [write, List.append_assoc, List.getElem?_append_left (by omega), List.getElem?_take,
    if_pos hi]

/-- The bytes of the word are there. -/
theorem write_at (h : address + addressSize ≤ buffer.length) (hi : i < addressSize) :
    (write buffer address value)[address + i]? = (wordBytes value)[i]? := by
  have htake : (buffer.take address).length = address := by
    rw [List.length_take]
    omega
  have hlength := length_wordBytes value
  rw [write, List.append_assoc, List.getElem?_append_right (by omega), htake,
    List.getElem?_append_left (by omega), Nat.add_sub_cancel_left]

/-- A byte behind the word stays. -/
theorem write_behind (h : address + addressSize ≤ buffer.length) (hi : address + addressSize ≤ i) :
    (write buffer address value)[i]? = buffer[i]? := by
  have htake : (buffer.take address).length = address := by
    rw [List.length_take]
    omega
  have hlength := length_wordBytes value
  rw [write, List.append_assoc, List.getElem?_append_right (by omega), htake,
    List.getElem?_append_right (by omega), List.getElem?_drop, hlength]
  congr 1
  omega

end Write

/-! ## Writing all of them -/

/-- The eight bytes at an address are those of a word. -/
def Holds (buffer : List UInt8) (address value : Nat) : Prop :=
  ∀ i < addressSize, buffer[address + i]? = (wordBytes value)[i]?

/-- The byte is part of no word that is patched. -/
def Unpatched (patches : List Patch) (i : Nat) : Prop :=
  ∀ patch ∈ patches, i < patch.address ∨ patch.address + addressSize ≤ i

/-- What patches have made of a buffer: every word holds its value and no other byte is changed. -/
structure Patched (value : Word → Except Fault Nat) (patches : List Patch)
    (buffer out : List UInt8) : Prop where
  length : out.length = buffer.length
  words : ∀ patch ∈ patches, ∃ n, value patch.word = .ok n ∧ Holds out patch.address n
  others : ∀ i, Unpatched patches i → out[i]? = buffer[i]?

section Backpatch

variable {value : Word → Except Fault Nat} {patches : List Patch} {buffer out : List UInt8}

/-- A patch is written if its word has a value. -/
theorem writePatch_ok {patch : Patch} (h : writePatch value buffer patch = .ok out) :
    ∃ n, value patch.word = .ok n ∧ patch.address + addressSize ≤ buffer.length ∧
      out = write buffer patch.address n := by
  unfold writePatch at h
  obtain ⟨n, hvalue, h⟩ := Except.bind_eq_ok.mp h
  split at h
  · rename_i hfits
    cases h
    exact ⟨n, hvalue, hfits, rfl⟩
  · cases h

/-- Patches that stand one behind the other do not disturb each other. -/
theorem patched_of_backpatch (hpairwise : patches.Pairwise Patch.InFrontOf)
    (h : backpatch value patches buffer = .ok out) : Patched value patches buffer out := by
  induction patches generalizing buffer with
  | nil =>
      cases h
      exact ⟨rfl, nofun, fun _ _ => rfl⟩
  | cons patch patches ih =>
      obtain ⟨hfront, hpairwise⟩ := List.pairwise_cons.mp hpairwise
      rw [backpatch, List.foldlM_cons] at h
      obtain ⟨written, hfirst, h⟩ := Except.bind_eq_ok.mp h
      obtain ⟨n, hvalue, hfits, rfl⟩ := writePatch_ok hfirst
      have hrest := ih hpairwise h
      refine ⟨hrest.length.trans (length_write hfits), ?_, fun i hi => ?_⟩
      · refine List.forall_mem_cons.mpr ⟨⟨n, hvalue, fun i hi => ?_⟩, hrest.words⟩
        rw [hrest.others _ fun other hother => Or.inl ?_, write_at hfits hi]
        have hbehind : patch.address + addressSize ≤ other.address := hfront other hother
        omega
      · have hothers : Unpatched patches i := fun other hother =>
          hi other (List.mem_cons_of_mem _ hother)
        rw [hrest.others i hothers]
        rcases hi patch List.mem_cons_self with hi | hi
        · exact write_before hfits hi
        · exact write_behind hfits hi

end Backpatch

/-! ## Words of an array

A word is read as it was written, byte by byte. -/

/-- The number that is spelled by given bytes of an array. -/
theorem number_of_bytes {memory : Array UInt8} : ∀ {data : List UInt8} {a : Nat},
    (∀ i < data.length, memory.toList[a + i]? = data[i]?) →
      Bytes.number memory a data.length = Bytes.toNat data
  | [], _, _ => rfl
  | byte :: data, a, h => by
      have hrest : Bytes.number memory (a + 1) data.length = Bytes.toNat data := by
        refine number_of_bytes fun i hi => ?_
        have hbyte := h (i + 1) (by simpa using hi)
        rwa [Nat.add_comm i 1, ← Nat.add_assoc, Nat.add_comm 1 i, List.getElem?_cons_succ]
          at hbyte
      have hfirst := h 0 (by simp)
      rw [Nat.add_zero, List.getElem?_cons_zero, Array.getElem?_toList] at hfirst
      rw [List.length_cons, Bytes.number, hrest, Array.getD_eq_getD_getElem?, hfirst]
      rfl

theorem word?_of_holds {memory : Array UInt8} {a n : Nat} (h : Holds memory.toList a n) :
    Bytes.word? memory a = some (n % addressSpace) := by
  have hlength : (wordBytes n).length = 8 := length_wordBytes n
  have hnumber : Bytes.number memory a 8 = n % addressSpace := by
    rw [← hlength, number_of_bytes fun i hi => h i (by rwa [length_wordBytes] at hi), wordBytes,
      Bytes.toNat_ofNat]
    rfl
  have hlast := h 7 (by decide)
  have hsize : a + 8 ≤ memory.size := by
    have hsome : (wordBytes n)[7]?.isSome = true := by
      rw [List.getElem?_eq_getElem (by omega)]
      rfl
    rw [← hlast, Array.getElem?_toList] at hsome
    have := Array.getElem?_eq_some_iff.mp (Option.eq_some_of_isSome hsome)
    have hlt := this.1
    omega
  rw [Bytes.word?, Bytes.number?, if_pos hsize, hnumber]

end Assembly

end ByteJump
