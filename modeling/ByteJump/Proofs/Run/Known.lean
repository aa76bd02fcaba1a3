import ByteJump.Proofs.Run.Exec

set_option autoImplicit false

/-!
# What a run knows

The data holds what a run of the source knows of memory.  What may be read while a statement runs
lies in registers below those that are free or in scratch memory, so it is neither in the immediate
register nor in code.

A store of the source has a value at some addresses, and nothing at others: there it is not known.
`Known` compares it with data: where the store knows a byte, and the address may be read below the
mark, the data holds that byte.  The lemmas say what keeps this: code that changes temporaries
only, a byte that is set on both sides, and bytes that the source forgets.
-/

namespace ByteJump

namespace Emit

open Assembly Memory Linked

variable {L : Linked}

/-! ## Known bytes -/

variable (L) in
/-- What a run may read below the mark is in the data. -/
def Known (mark : Nat) (m : Source.Store) (d : Contents) : Prop :=
  ∀ a v, L.world.reaches mark a = true → m a = some v → d a = v

/-- What may be read is in a register below the mark or in scratch memory. -/
theorem reaches_cases {mark a : Nat} (h : L.world.reaches mark a = true) :
    immediate + registerSize ≤ a ∧ a < register mark ∨ L.stop ≤ a ∧ a < L.size := by
  have hfirst : Source.firstSlot = immediate + registerSize := by decide
  unfold Source.World.reaches at h
  simp only [Bool.or_eq_true, decide_eq_true_eq, hfirst, L.scratch] at h
  exact h

/-- What may be read is data. -/
theorem isData_of_reaches {mark a : Nat} (hmark : mark ≤ registerCount)
    (h : L.world.reaches mark a = true) : L.IsData a ∧ immediate + registerSize ≤ a := by
  have hregister := register_mono hmark (Nat.le_refl registerCount)
  rw [register_registerCount] at hregister
  have hcode := addTable_lt_codeStart
  have hstop := codeStart_le_stop (L := L)
  have htable : immediate + registerSize ≤ addTable := by decide
  rcases reaches_cases h with hslot | hscratch
  · exact ⟨Or.inl (by omega), hslot.1⟩
  · exact ⟨Or.inr hscratch, by omega⟩

/-- Temporaries lie at or above the mark, so they are not among the known bytes. -/
theorem Known.mono {mark mark' : Nat} {m : Source.Store} {d d' : Contents} {temps : List Nat}
    (h : Known L mark m d) (hmark : mark ≤ mark') (hcount : mark' ≤ registerCount)
    (hother : ∀ a, a < immediate ∨ immediate + registerSize ≤ a → a ∉ temps → d' a = d a)
    (htemps : ∀ a ∈ temps, register mark' ≤ a ∧ a < addTable) : Known L mark m d' := by
  intro a v hreaches ha
  have hregister := register_mono hmark hcount
  have hcode := addTable_lt_codeStart
  have hstop := codeStart_le_stop (L := L)
  have hlow := (isData_of_reaches (Nat.le_trans hmark hcount) hreaches).2
  rw [hother a (Or.inr hlow) fun htemp => ?_]
  · exact h a v hreaches ha
  · have hrange := htemps a htemp
    rcases reaches_cases hreaches with hslot | hscratch <;> omega

/-- A byte that is loaded is one that may be read and is known. -/
theorem load_eq_some {mark a : Nat} {m : Source.Store} {v : UInt8}
    (h : L.world.load m mark a = some v) : L.world.reaches mark a = true ∧ m a = some v := by
  unfold Source.World.load at h
  split at h
  · rename_i hreaches
    exact ⟨hreaches, h⟩
  · cases h

/-- A number that a run reads is in the data. -/
theorem number_of_known {mark : Nat} {m : Source.Store} {d : Contents} (hknown : Known L mark m d) :
    ∀ {width a v : Nat}, L.world.number m mark a width = some v →
      d.number a width = v ∧ ∀ i < width, L.world.reaches mark (a + i) = true
  | 0, a, v, h => by
      cases h
      exact ⟨rfl, nofun⟩
  | width + 1, a, v, h => by
      rw [Source.World.number] at h
      obtain ⟨low, hlow, h⟩ := Option.bind_eq_some_iff.mp h
      obtain ⟨high, hhigh, h⟩ := Option.bind_eq_some_iff.mp h
      cases h
      obtain ⟨hreaches, hbyte⟩ := load_eq_some hlow
      obtain ⟨hrest, hreach⟩ := number_of_known hknown hhigh
      refine ⟨?_, fun i hi => ?_⟩
      · rw [Contents.number, hknown a low hreaches hbyte, hrest]
      · cases i with
        | zero => exact hreaches
        | succ i =>
            have hi' := hreach i (by omega)
            rwa [Nat.add_assoc, Nat.add_comm 1 i] at hi'

/-- Less may be read below a smaller mark. -/
theorem Known.below {mark mark' : Nat} {m : Source.Store} {d : Contents} (h : Known L mark' m d)
    (hmark : mark ≤ mark') (hcount : mark' ≤ registerCount) : Known L mark m d := by
  intro a v hreaches ha
  have hregister := register_mono hmark hcount
  refine h a v ?_ ha
  unfold Source.World.reaches at hreaches ⊢
  simp only [Bool.or_eq_true, decide_eq_true_eq] at hreaches ⊢
  rcases hreaches with hslot | hscratch
  · exact Or.inl ⟨hslot.1, by omega⟩
  · exact Or.inr hscratch

/-- A run forgets what was overwritten. -/
theorem Known.forget {mark : Nat} {m : Source.Store} {d d' : Contents} {temps : List Nat}
    (h : Known L mark m d) (hcount : mark ≤ registerCount)
    (hother : ∀ a, a < immediate ∨ immediate + registerSize ≤ a → a ∉ temps → d' a = d a) :
    Known L mark (L.world.forget m temps) d' := by
  intro a v hreaches ha
  unfold Source.World.forget at ha
  split at ha
  · cases ha
  · rename_i hcareful
    rw [L.careful, Bool.true_and, List.contains_iff_mem] at hcareful
    rw [hother a (Or.inr (isData_of_reaches hcount hreaches).2) hcareful]
    exact h a v hreaches ha

/-- The byte is set on both sides. -/
theorem Known.set {mark a : Nat} {m : Source.Store} {d : Contents} {b : UInt8}
    (h : Known L mark m d) : Known L mark (m.set a b) (d.set a b) := by
  intro x v hreaches hx
  unfold Source.Store.set at hx
  unfold Contents.set
  split at hx
  · rename_i heq
    rw [if_pos heq]
    exact Option.some.inj hx
  · rename_i hne
    rw [if_neg hne]
    exact h x v hreaches hx

/-- By induction on the width. -/
theorem Known.write {mark : Nat} : ∀ {width a value : Nat} {m : Source.Store} {d : Contents},
    Known L mark m d → Known L mark (m.write a width value) (d.write a width value)
  | 0, _, _, _, _, h => h
  | width + 1, a, value, m, d, h => by
      rw [Source.Store.write, Contents.write]
      exact Known.write h.set

end Emit

end ByteJump
