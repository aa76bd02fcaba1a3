import ByteJump.Proofs.Run.Linked

set_option autoImplicit false

/-!
# Instructions that are changed when they are reached

A row of copies into an instruction and the instruction itself run as one: by the time the
instruction is reached, its fields are what was laid down with the copied bytes in place.

Pointers, tables and branches all work by patching: the code copies bytes of data into the fields
of an instruction further on, and then runs into it.  The proof goes in three steps.
`run_patches` runs the copies, by induction on the fields, and says which bytes of the instruction
are new; `field_of_patched` puts these together to a number; `run_patching` combines the two into
`Copies`, which says what the instruction will do when it is reached.  `run_patched` adds that it
does so, and is what the modules on expressions and branches use.
-/

namespace ByteJump

open Assembly Memory

namespace Linked

variable {L : Linked}

/-- The bytes of a field of an instruction into which bytes of data were copied. -/
def patchedField (d : Contents) (fields : List (Nat × Nat)) (field value : Nat) : Contents :=
  fun i =>
    match fields.find? fun other => other.2 = field + i with
    | some (source, _) => d source
    | none => (wordBytes value).getD i 0

/-- One copy into an instruction that stands further on. -/
theorem run_patch {source destination start : Nat} {before behind : List Piece} {c d : Contents}
    (hpieces : L.pieces = before ++ .instruction source destination
      (.known (start + instructionSize)) :: behind)
    (hstart : start = codeStart + Assembly.size before)
    (hkept : ∀ i < instructionSize, start + i ∉ destinations L.pieces) (hsource : source < addTable)
    (hlow : addTable ≤ destination) (hhigh : destination < L.stop) (hintact : L.Intact c)
    (hshows : L.Shows d c) :
    Step L.size c start (c.set destination (d source)) (start + instructionSize) ∧
      L.Intact (c.set destination (d source)) ∧ L.Shows d (c.set destination (d source)) := by
  have hstop : L.stop ≤ L.size := Nat.le_add_right _ _
  have hnext := value_known (stop_eq hpieces hstart)
  have hmem : destination ∈ destinations L.pieces := by
    rw [hpieces]
    exact mem_destinations (List.mem_append_right _ List.mem_cons_self)
  have hstep := step_of_kept hpieces hstart hintact hkept (isData_of_lt hsource).lt_size (by omega)
    (by rw [hnext]; simp [instructionSize])
  rw [hnext, hshows source (isData_of_lt hsource)] at hstep
  exact ⟨hstep, hintact.set (Or.inr hmem), hshows.set_code ⟨hlow, hhigh⟩⟩

/-- Copies into an instruction. -/
theorem run_patches {target : Nat} {d : Contents} : ∀ {fields : List (Nat × Nat)}
    {start : Nat} {before behind : List Piece} {c : Contents},
    L.pieces = before ++ patchPieces target start fields ++ behind →
    start = codeStart + Assembly.size before →
    (∀ a, start ≤ a → a < start + fields.length * instructionSize →
      a ∉ destinations L.pieces) →
    (∀ field ∈ fields, field.1 < addTable ∧ addTable ≤ target + field.2 ∧
      target + field.2 < L.stop) →
    (fields.map Prod.snd).Nodup → L.Intact c → L.Shows d c →
    ∃ c', Climbs L.size fields.length c start c' (start + fields.length * instructionSize) ∧
      L.Intact c' ∧ L.Shows d c' ∧ (∀ field ∈ fields, c' (target + field.2) = d field.1) ∧
      ∀ a, (∀ field ∈ fields, a ≠ target + field.2) → c' a = c a
  | [], start, before, behind, c, _, _, _, _, _, hintact, hshows => by
      refine ⟨c, ?_, hintact, hshows, nofun, fun _ _ => rfl⟩
      simp only [List.length_nil, Nat.zero_mul, Nat.add_zero]
      exact .none c start
  | (source, offset) :: rest, start, before, behind, c, hpieces, hstart, hkept, hfields, hnodup,
      hintact, hshows => by
      obtain ⟨hsource, hlow, hhigh⟩ := hfields (source, offset) List.mem_cons_self
      dsimp only at hsource hlow hhigh
      rw [patchPieces, List.append_assoc, List.cons_append] at hpieces
      obtain ⟨hstep, hintact', hshows'⟩ := run_patch hpieces hstart
        (fun i hi => hkept (start + i) (by omega) (by
          simp only [List.length_cons, Nat.add_mul]
          omega)) hsource hlow hhigh hintact hshows
      have hpieces' : L.pieces = (before ++ [.instruction source (target + offset)
          (.known (start + instructionSize))]) ++
          patchPieces target (start + instructionSize) rest ++ behind := by
        rw [hpieces]
        simp
      have hstart' : start + instructionSize = codeStart + Assembly.size (before ++
          [.instruction source (target + offset) (.known (start + instructionSize))]) := by
        rw [size_append, hstart]
        simp [Assembly.size, Piece.size, Nat.add_assoc]
      obtain ⟨hfirst, hrest⟩ := List.nodup_cons.mp hnodup
      obtain ⟨c', hclimbs, hintact'', hshows'', hpatched, hother⟩ := run_patches hpieces' hstart'
        (fun a ha ha' => hkept a (by omega) (by
          simp only [List.length_cons, Nat.add_mul]
          omega))
        (fun field hfield => hfields field (List.mem_cons_of_mem _ hfield)) hrest hintact' hshows'
      refine ⟨c', ?_, hintact'', hshows'', ?_, ?_⟩
      · have hlength : start + (rest.length + 1) * instructionSize =
            start + instructionSize + rest.length * instructionSize := by ring
        rw [List.length_cons, hlength]
        exact .more hstep (Nat.lt_add_of_pos_right (by decide)) hclimbs
      · intro field hfield
        -- later copies go to other offsets
        rcases List.mem_cons.mp hfield with rfl | hfield
        · have hne : ∀ field ∈ rest, target + offset ≠ target + field.2 := by
            intro field hfield heq
            have heq' : field.2 = offset := by omega
            exact hfirst (List.mem_map.mpr ⟨field, hfield, heq'⟩)
          rw [hother _ hne, Contents.set_self]
        · exact hpatched field hfield
      · intro a ha
        rw [hother a fun field hfield => ha field (List.mem_cons_of_mem _ hfield)]
        exact Contents.set_of_ne (ha (source, offset) List.mem_cons_self)

/-- A field of an instruction that was copied into. -/
theorem field_of_patched {d c c' : Contents} {fields : List (Nat × Nat)} {target field n : Nat}
    (hintact : L.Intact c) (hpatched : ∀ f ∈ fields, c' (target + f.2) = d f.1)
    (hother : ∀ a, (∀ f ∈ fields, a ≠ target + f.2) → c' a = c a)
    (hkept : ∀ i < addressSize, (∀ f ∈ fields, target + field + i ≠ target + f.2) →
      addTable ≤ target + field + i ∧ target + field + i < L.stop ∧
        target + field + i ∉ destinations L.pieces)
    (himage : ∀ i (hi : i < (wordBytes n).length),
      L.image (target + field + i) = (wordBytes n)[i]) :
    c'.number (target + field) addressSize = (patchedField d fields field n).number 0 addressSize := by
  refine Contents.number_congr fun i hi => ?_
  have hlength : i < (wordBytes n).length := by rwa [length_wordBytes]
  rw [Nat.zero_add]
  unfold patchedField
  cases hfind : fields.find? fun other => other.2 = field + i with
  | some f =>
      have hmem := List.mem_of_find?_eq_some hfind
      have hoffset : f.2 = field + i := by simpa using List.find?_some hfind
      have hbyte := hpatched f hmem
      rw [hoffset, ← Nat.add_assoc] at hbyte
      exact hbyte
  | none =>
      have hnone : ∀ f ∈ fields, target + field + i ≠ target + f.2 := by
        intro f hf heq
        have hne := List.find?_eq_none.mp hfind f hf
        simp only [decide_eq_true_eq] at hne
        omega
      obtain ⟨hlow, hhigh, hkept⟩ := hkept i hi hnone
      rw [hother _ hnone, hintact _ hlow hhigh hkept, himage i hlength]
      simp [hlength]

/-- The instruction at `pc` says by now what to copy where, and goes on behind itself. -/
structure Copies (L : Linked) (c : Contents) (pc src dst : Nat) : Prop where
  fits : pc + instructionSize ≤ L.stop
  source : c.number (pc + sourceField) addressSize = src
  destination : c.number (pc + destinationField) addressSize = dst
  next : c.number (pc + nextField) addressSize = pc + instructionSize

/-- Both addresses are in the memory, so the byte is copied and the machine goes on behind. -/
theorem Copies.step {c : Contents} {pc src dst : Nat} (h : Copies L c pc src dst)
    (hsrc : src < L.size) (hdst : dst < L.size) :
    Step L.size c pc (c.set dst (c src)) (pc + instructionSize) where
  fits := Nat.le_trans h.fits (Nat.le_add_right _ _)
  source := by rwa [h.source]
  destination := by rwa [h.destination]
  next := h.next
  moves := by simp [instructionSize]
  result := by rw [h.source, h.destination]

/-- The byte to be copied lies outside of the memory, which ends the run. -/
theorem Copies.strays {c : Contents} {pc src dst : Nat} (h : Copies L c pc src dst)
    (hsrc : L.size ≤ src) : Strays L.size c pc where
  fits := Nat.le_trans h.fits (Nat.le_add_right _ _)
  source := by rwa [h.source]

/-- Copies into an instruction, up to that instruction. -/
theorem run_patching {d c : Contents} {fields : List (Nat × Nat)}
    {start source destination src dst : Nat} {before behind : List Piece}
    (hpieces : L.pieces = before ++ patchedPieces start fields source destination ++ behind)
    (hstart : start = codeStart + Assembly.size before)
    (hkept : ∀ a, start ≤ a → a < start + (fields.length + 1) * instructionSize →
      (∀ f ∈ fields, a ≠ start + fields.length * instructionSize + f.2) →
      a ∉ destinations L.pieces)
    (hfields : ∀ f ∈ fields, f.1 < addTable ∧ f.2 < nextField)
    (hnodup : (fields.map Prod.snd).Nodup) (hintact : L.Intact c) (hshows : L.Shows d c)
    (hfrom : (patchedField d fields sourceField source).number 0 addressSize = src)
    (hto : (patchedField d fields destinationField destination).number 0 addressSize = dst) :
    ∃ c', Climbs L.size fields.length c start c' (start + fields.length * instructionSize) ∧
      L.Intact c' ∧ L.Shows d c' ∧ Copies L c' (start + fields.length * instructionSize) src dst ∧
      ∀ a, (∀ f ∈ fields, a ≠ start + fields.length * instructionSize + f.2) → c' a = c a := by
  have hcode := addTable_lt_codeStart
  have hend : start + (fields.length + 1) * instructionSize =
      start + fields.length * instructionSize + instructionSize := by ring
  rw [hend] at hkept
  generalize htarget : start + fields.length * instructionSize = target at hkept ⊢
  have hpatches : L.pieces = before ++ patchPieces target start fields ++
      (.instruction source destination (.known (target + instructionSize)) :: behind) := by
    rw [hpieces, patchedPieces, htarget]
    simp
  have hlast : L.pieces = (before ++ patchPieces target start fields) ++
      .instruction source destination (.known (target + instructionSize)) :: behind := by
    rw [hpatches]
  have htarget' : target =
      codeStart + Assembly.size (before ++ patchPieces target start fields) := by
    rw [size_append, size_patchPieces, ← Nat.add_assoc, ← hstart, htarget]
  have hfits := stop_eq hlast htarget'
  have hsmall : nextField < instructionSize := by decide
  have hword : addressSize + destinationField ≤ nextField := by decide
  obtain ⟨c', hclimbs, hintact', hshows', hpatched, hother⟩ := run_patches hpatches hstart
    (fun a hlow hhigh => hkept a hlow (by omega) fun f hf => by omega)
    (fun f hf => ⟨(hfields f hf).1, by omega, by have := (hfields f hf).2; omega⟩)
    hnodup hintact hshows
  rw [htarget] at hclimbs
  obtain ⟨hsource, hdestination, hnext⟩ := image_instruction hlast htarget'
  have hfield : ∀ field, field + addressSize ≤ instructionSize → ∀ i < addressSize,
      (∀ f ∈ fields, target + field + i ≠ target + f.2) →
      addTable ≤ target + field + i ∧ target + field + i < L.stop ∧
        target + field + i ∉ destinations L.pieces := by
    intro field hfield i hi hne
    exact ⟨by omega, by omega, hkept _ (by omega) (by omega) hne⟩
  have hfrom' := field_of_patched hintact hpatched hother
    (hfield sourceField (by decide)) hsource
  have hto' := field_of_patched hintact hpatched hother
    (hfield destinationField (by decide)) hdestination
  -- the fields that are copied into lie in front of the successor
  have hkeptNext : ∀ i < addressSize, target + nextField + i ∉ destinations L.pieces := by
    intro i hi
    have hne : ∀ f ∈ fields, target + nextField + i ≠ target + f.2 := by
      intro f hf
      have hlt := (hfields f hf).2
      omega
    exact (hfield nextField (by decide) i hi hne).2.2
  have hnext' := field_of_kept _ hlast htarget' hintact' (by decide) hkeptNext hnext
  rw [value_known hfits] at hnext'
  exact ⟨c', hclimbs, hintact', hshows', ⟨hfits, hfrom'.trans hfrom, hto'.trans hto, hnext'⟩, hother⟩

/-- Copies into an instruction and the instruction. -/
theorem run_patched {d c : Contents} {fields : List (Nat × Nat)}
    {start source destination src dst : Nat} {before behind : List Piece}
    (hpieces : L.pieces = before ++ patchedPieces start fields source destination ++ behind)
    (hstart : start = codeStart + Assembly.size before)
    (hkept : ∀ a, start ≤ a → a < start + (fields.length + 1) * instructionSize →
      (∀ f ∈ fields, a ≠ start + fields.length * instructionSize + f.2) →
      a ∉ destinations L.pieces)
    (hfields : ∀ f ∈ fields, f.1 < addTable ∧ f.2 < nextField)
    (hnodup : (fields.map Prod.snd).Nodup) (hintact : L.Intact c) (hshows : L.Shows d c)
    (hfrom : (patchedField d fields sourceField source).number 0 addressSize = src)
    (hto : (patchedField d fields destinationField destination).number 0 addressSize = dst)
    (hsrc : src < L.size) (hdst : dst < L.size) :
    ∃ c', Climbs L.size (fields.length + 1) c start (c'.set dst (c' src))
        (start + (fields.length + 1) * instructionSize) ∧ L.Intact c' ∧ L.Shows d c' ∧
      ∀ a, (∀ f ∈ fields, a ≠ start + fields.length * instructionSize + f.2) → c' a = c a := by
  obtain ⟨c', hclimbs, hintact', hshows', hcopies, hother⟩ :=
    run_patching hpieces hstart hkept hfields hnodup hintact hshows hfrom hto
  have hend : start + (fields.length + 1) * instructionSize =
      start + fields.length * instructionSize + instructionSize := by ring
  rw [hend]
  have hlast := Climbs.one (hcopies.step hsrc hdst) (Nat.lt_add_of_pos_right (by decide))
  exact ⟨c', hclimbs.trans hlast, hintact', hshows', hother⟩

end Linked

end ByteJump
