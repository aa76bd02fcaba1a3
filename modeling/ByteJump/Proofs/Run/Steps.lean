import ByteJump.Proofs.Run.Contents

set_option autoImplicit false

/-!
# Steps of a machine

One step that goes on, and several of them, on the contents of a memory of a fixed size.  A machine
with that memory does the same steps, so a run ends where the steps end, or where its limit is.

Memory is looked at as a function from addresses to bytes, together with its size; a step then
changes one address.  Three kinds of runs are built from steps.  `Steps` counts them; `Climbs` are
steps that always go up, as straight code does, so that the halt behind the code is not reached in
between; `Leaps` are climbs with one last jump.  The second half compares these with the machine:
as long as it is not halted, its memory is the contents, and its steps are the steps.  What is
left at the end are statements on `runFor`, by how many steps are done.
-/

namespace ByteJump

open Memory

/-! ## Steps on contents -/

/-- The instruction at `pc` copies a byte and goes on somewhere else, at `pc'`. -/
structure Step (size : Nat) (c : Contents) (pc : Nat) (c' : Contents) (pc' : Nat) : Prop where
  fits : pc + instructionSize ≤ size
  source : c.number (pc + sourceField) addressSize < size
  destination : c.number (pc + destinationField) addressSize < size
  next : c.number (pc + nextField) addressSize = pc'
  moves : pc' ≠ pc
  result : c' = c.set (c.number (pc + destinationField) addressSize)
    (c (c.number (pc + sourceField) addressSize))

/-- So many steps lead from one place to another. -/
inductive Steps (size : Nat) : Nat → Contents → Nat → Contents → Nat → Prop
  | none (c : Contents) (pc : Nat) : Steps size 0 c pc c pc
  | more {k : Nat} {c c' c'' : Contents} {pc pc' pc'' : Nat} (first : Step size c pc c' pc')
      (rest : Steps size k c' pc' c'' pc'') : Steps size (k + 1) c pc c'' pc''

/-- One step. -/
theorem Steps.one {size : Nat} {c c' : Contents} {pc pc' : Nat} (h : Step size c pc c' pc') :
    Steps size 1 c pc c' pc' := .more h (.none _ _)

/-- The numbers of steps add up. -/
theorem Steps.trans {size k l : Nat} {c c' c'' : Contents} {pc pc' pc'' : Nat}
    (h : Steps size k c pc c' pc') (h' : Steps size l c' pc' c'' pc'') :
    Steps size (k + l) c pc c'' pc'' := by
  induction h with
  | none c pc =>
      rw [Nat.zero_add]
      exact h'
  | more first rest ih =>
      rw [Nat.add_right_comm]
      exact .more first (ih h')

/-- So many steps, each to a higher address, lead from one place to another. -/
inductive Climbs (size : Nat) : Nat → Contents → Nat → Contents → Nat → Prop
  | none (c : Contents) (pc : Nat) : Climbs size 0 c pc c pc
  | more {k : Nat} {c c' c'' : Contents} {pc pc' pc'' : Nat} (first : Step size c pc c' pc')
      (rises : pc < pc') (rest : Climbs size k c' pc' c'' pc'') : Climbs size (k + 1) c pc c'' pc''

section Climbs

variable {size k l : Nat} {c c' c'' : Contents} {pc pc' pc'' : Nat}

theorem Climbs.one (h : Step size c pc c' pc') (rises : pc < pc') : Climbs size 1 c pc c' pc' :=
  .more h rises (.none _ _)

theorem Climbs.step_of_one (h : Climbs size 1 c pc c' pc') : Step size c pc c' pc' ∧ pc < pc' := by
  cases h with
  | more first rises rest =>
      cases rest
      exact ⟨first, rises⟩

/-- A climb goes on from where another one ends. -/
theorem Climbs.trans (h : Climbs size k c pc c' pc') (h' : Climbs size l c' pc' c'' pc'') :
    Climbs size (k + l) c pc c'' pc'' := by
  induction h with
  | none c pc =>
      rw [Nat.zero_add]
      exact h'
  | more first rises rest ih =>
      rw [Nat.add_right_comm]
      exact .more first rises (ih h')

theorem Climbs.steps (h : Climbs size k c pc c' pc') : Steps size k c pc c' pc' := by
  induction h with
  | none c pc => exact .none c pc
  | more first _ _ ih => exact .more first ih

/-- A climb ends no lower than it starts. -/
theorem Climbs.le (h : Climbs size k c pc c' pc') : pc ≤ pc' := by
  induction h with
  | none c pc => exact Nat.le_refl pc
  | more _ rises _ ih => exact Nat.le_trans (Nat.le_of_lt rises) ih

/-- On the way up the steps are below the end. -/
theorem Climbs.before (h : Climbs size k c pc c' pc') : ∀ j < k,
    ∃ c₁ pc₁, Steps size j c pc c₁ pc₁ ∧ pc ≤ pc₁ ∧ pc₁ < pc' := by
  induction h with
  | none c pc => nofun
  | @more k c _ _ pc _ _ first rises rest ih =>
      intro j hj
      cases j with
      | zero => exact ⟨c, pc, .none c pc, Nat.le_refl pc, Nat.lt_of_lt_of_le rises rest.le⟩
      | succ j =>
          obtain ⟨c₁, pc₁, hsteps, hlow, hhigh⟩ := ih j (Nat.lt_of_succ_lt_succ hj)
          exact ⟨c₁, pc₁, .more first hsteps, Nat.le_trans (Nat.le_of_lt rises) hlow, hhigh⟩

/-- So many steps to higher addresses below a limit, and one more to anywhere. -/
def Leaps (size k : Nat) (c : Contents) (pc : Nat) (c' : Contents) (pc' limit : Nat) : Prop :=
  ∃ c₁ pc₁, Climbs size k c pc c₁ pc₁ ∧ pc₁ < limit ∧ Step size c₁ pc₁ c' pc'

variable {limit : Nat}

/-- A climb in front of a leap. -/
theorem Climbs.leaps (h : Climbs size k c pc c' pc') (h' : Leaps size l c' pc' c'' pc'' limit) :
    Leaps size (k + l) c pc c'' pc'' limit := by
  obtain ⟨c₁, pc₁, hclimbs, hlimit, hlast⟩ := h'
  exact ⟨c₁, pc₁, h.trans hclimbs, hlimit, hlast⟩

theorem Leaps.steps (h : Leaps size k c pc c' pc' limit) : Steps size (k + 1) c pc c' pc' := by
  obtain ⟨c₁, pc₁, hclimbs, -, hlast⟩ := h
  exact hclimbs.steps.trans (.one hlast)

end Climbs

/-- The instruction at `pc` copies from an address outside memory. -/
structure Strays (size : Nat) (c : Contents) (pc : Nat) : Prop where
  fits : pc + instructionSize ≤ size
  source : size ≤ c.number (pc + sourceField) addressSize

/-! ## The machine -/

namespace Machine

/-- The contents of a machine's memory; zero outside. -/
def contents (m : Machine) : Contents := fun address => m.memory.getD address 0

/-- A number in memory is the number in its contents. -/
theorem number_contents (memory : Array UInt8) : ∀ (width address : Nat),
    Bytes.number memory address width =
      Contents.number (fun other => memory.getD other 0) address width
  | 0, _ => rfl
  | width + 1, address => by
      rw [Bytes.number, Contents.number, number_contents memory width]

/-- A field of an instruction in memory, without overflow. -/
theorem field_eq {m : Machine} (offset : Nat) (hsize : m.memory.size ≤ addressSpace)
    (hfits : m.pc + instructionSize ≤ m.memory.size) (hoffset : offset ≤ nextField) :
    m.field offset = .ok (m.contents.number (m.pc + offset) addressSize) := by
  simp only [instructionSize, nextField] at hfits hoffset
  have hadvance : advance m.pc offset = m.pc + offset :=
    Nat.mod_eq_of_lt (by omega)
  have hword : Bytes.word? m.memory (m.pc + offset) =
      some (m.contents.number (m.pc + offset) addressSize) := by
    unfold Bytes.word? Bytes.number?
    rw [if_pos (by omega), number_contents]
    rfl
  simp only [field, hadvance, hword]

/-- The instruction at `pc` is what the contents say there. -/
theorem fetch_eq {m : Machine} (hsize : m.memory.size ≤ addressSpace)
    (hfits : m.pc + instructionSize ≤ m.memory.size)
    (hsource : m.contents.number (m.pc + sourceField) addressSize < m.memory.size)
    (hdestination : m.contents.number (m.pc + destinationField) addressSize < m.memory.size) :
    m.fetch = .ok ⟨m.contents.number (m.pc + sourceField) addressSize,
      m.contents.number (m.pc + destinationField) addressSize,
      m.contents.number (m.pc + nextField) addressSize⟩ := by
  unfold fetch
  rw [field_eq sourceField hsize hfits (by decide),
    field_eq destinationField hsize hfits (by decide), field_eq nextField hsize hfits (by decide)]
  simp only [bind, Except.bind]
  rw [if_neg (Nat.not_le.mpr hsource), if_neg (Nat.not_le.mpr hdestination)]

/-- An instruction whose source lies outside memory has a fault. -/
theorem fetch_outside {m : Machine} (hsize : m.memory.size ≤ addressSpace)
    (hfits : m.pc + instructionSize ≤ m.memory.size)
    (hsource : m.memory.size ≤ m.contents.number (m.pc + sourceField) addressSize) :
    m.fetch = .error (.outOfBounds m.pc
      (m.contents.number (m.pc + sourceField) addressSize)) := by
  unfold fetch
  rw [field_eq sourceField hsize hfits (by decide),
    field_eq destinationField hsize hfits (by decide), field_eq nextField hsize hfits (by decide)]
  simp only [bind, Except.bind]
  rw [if_pos hsource]

/-- A copy changes the one byte it writes. -/
theorem contents_perform {m : Machine} {copy : Copy} (h : copy.destination < m.memory.size) :
    (m.perform copy).contents = m.contents.set copy.destination (m.contents copy.source) := by
  funext other
  show (m.memory.setIfInBounds _ _).getD other 0 = _
  unfold Contents.set
  split
  · rename_i heq
    rw [heq, Array.getD_eq_getD_getElem?, Array.getElem?_setIfInBounds_self_of_lt h]
    rfl
  · rename_i hne
    rw [Array.getD_eq_getD_getElem?, Array.getElem?_setIfInBounds_ne (Ne.symm hne),
      ← Array.getD_eq_getD_getElem?]
    rfl

/-- A machine that goes on does the step of its contents. -/
theorem fetch_of_step {m : Machine} {c' : Contents} {pc' : Nat}
    (hsize : m.memory.size ≤ addressSpace) (h : Step m.memory.size m.contents m.pc c' pc') :
    ∃ copy, m.fetch = .ok copy ∧ (m.perform copy).contents = c' ∧ (m.perform copy).pc = pc' ∧
      (m.perform copy).halted = false := by
  have hfetch := fetch_eq hsize h.fits h.source h.destination
  rw [h.next] at hfetch
  refine ⟨_, hfetch, (contents_perform ?_).trans h.result.symm, rfl, decide_eq_false h.moves⟩
  exact h.destination

/-- The machine after so many steps. -/
def stepped : Nat → Machine → Except Fault Machine
  | 0, m => .ok m
  | k + 1, m => do stepped k (← m.step)

/-- A machine whose steps are known gets to their end. -/
theorem stepped_of_steps {k : Nat} {c c' : Contents} {pc pc' : Nat} {size : Nat}
    (hsize : size ≤ addressSpace) (h : Steps size k c pc c' pc') :
    ∀ {m : Machine}, m.memory.size = size → m.contents = c → m.pc = pc → m.halted = false →
      ∃ m', stepped k m = .ok m' ∧ m'.memory.size = size ∧ m'.contents = c' ∧ m'.pc = pc' ∧
        m'.halted = false := by
  induction h with
  | none c pc =>
      intro m hmemory hcontents hpc hhalted
      exact ⟨m, rfl, hmemory, hcontents, hpc, hhalted⟩
  | more first rest ih =>
      intro m hmemory hcontents hpc hhalted
      subst hcontents hpc hmemory
      obtain ⟨copy, hfetch, hcontents', hpc', hhalted'⟩ := fetch_of_step hsize first
      obtain ⟨m', hrun, hend⟩ :=
        ih (size_memory_perform m copy) hcontents' hpc' hhalted'
      refine ⟨m', ?_, hend⟩
      rw [stepped, step, hhalted, if_neg (by decide), hfetch]
      exact hrun

/-- Steps are done one after the other. -/
theorem stepped_add {l : Nat} {m' : Machine} : ∀ {k : Nat} {m : Machine}, stepped k m = .ok m' →
    stepped (k + l) m = stepped l m'
  | 0, m, h => by
      cases h
      rw [Nat.zero_add]
  | k + 1, m, h => by
      rw [Nat.add_right_comm, stepped]
      rw [stepped] at h
      cases hstep : m.step with
      | error fault =>
          rw [hstep] at h
          cases h
      | ok m₁ =>
          rw [hstep] at h
          exact stepped_add h

/-- For so many steps the machine stays between where it is and an address further up. -/
def Within (finish k : Nat) (m : Machine) : Prop :=
  ∀ j < k, ∀ m', stepped j m = .ok m' → m.pc ≤ m'.pc ∧ m'.pc < finish

/-- A climb stays below where it ends. -/
theorem within_of_climbs {k : Nat} {c c' : Contents} {pc pc' : Nat} {size : Nat}
    (hsize : size ≤ addressSpace) (h : Climbs size k c pc c' pc') {m : Machine}
    (hmemory : m.memory.size = size) (hcontents : m.contents = c) (hpc : m.pc = pc)
    (hhalted : m.halted = false) : m.Within pc' k := by
  intro j hj m₁ hrun
  rw [hpc]
  obtain ⟨c₁, pc₁, hsteps, hlow, hhigh⟩ := h.before j hj
  obtain ⟨m', hrun', -, -, rfl, -⟩ := stepped_of_steps hsize hsteps hmemory hcontents hpc hhalted
  cases hrun.symm.trans hrun'
  exact ⟨hlow, hhigh⟩

/-- Behind steps that are below a limit there may be one more step below it. -/
theorem within_of_climbs_below {k limit : Nat} {c c' : Contents} {pc pc' : Nat} {size : Nat}
    (hsize : size ≤ addressSpace) (h : Climbs size k c pc c' pc') (hlimit : pc' < limit) {m : Machine}
    (hmemory : m.memory.size = size) (hcontents : m.contents = c) (hpc : m.pc = pc)
    (hhalted : m.halted = false) : m.Within limit (k + 1) := by
  intro j hj m₁ hrun
  rcases Nat.lt_succ_iff_lt_or_eq.mp hj with hbefore | rfl
  · have hwithin := within_of_climbs hsize h hmemory hcontents hpc hhalted j hbefore m₁ hrun
    exact ⟨hwithin.1, Nat.lt_trans hwithin.2 hlimit⟩
  · obtain ⟨m', hrun', -, -, rfl, -⟩ := stepped_of_steps hsize h.steps hmemory hcontents hpc hhalted
    cases hrun.symm.trans hrun'
    exact ⟨hpc ▸ h.le, hlimit⟩

theorem within_of_leaps {k limit : Nat} {c c' : Contents} {pc pc' : Nat} {size : Nat}
    (hsize : size ≤ addressSpace) (h : Leaps size k c pc c' pc' limit) {m : Machine}
    (hmemory : m.memory.size = size) (hcontents : m.contents = c) (hpc : m.pc = pc)
    (hhalted : m.halted = false) : m.Within limit (k + 1) := by
  obtain ⟨c₁, pc₁, hclimbs, hlimit, -⟩ := h
  exact within_of_climbs_below hsize hclimbs hlimit hmemory hcontents hpc hhalted

/-- On the way to an address the machine has a fault, since it copies from an address outside its
memory. -/
def Astray (finish : Nat) (m : Machine) : Prop :=
  ∃ k pc a, stepped k m = .error (.outOfBounds pc a) ∧ m.memory.size ≤ a ∧ m.Within finish k

/-- A machine whose steps lead up to an instruction that copies from outside memory. -/
theorem astray_of_climbs {k finish : Nat} {c c' : Contents} {pc pc' : Nat} {size : Nat}
    (hsize : size ≤ addressSpace) (h : Climbs size k c pc c' pc') (hfinish : pc' < finish)
    (hstrays : Strays size c' pc') {m : Machine} (hmemory : m.memory.size = size)
    (hcontents : m.contents = c) (hpc : m.pc = pc) (hhalted : m.halted = false) :
    m.Astray finish := by
  obtain ⟨m', hrun, hmemory', rfl, rfl, hhalted'⟩ :=
    stepped_of_steps hsize h.steps hmemory hcontents hpc hhalted
  have hfetch := fetch_outside (m := m') (hmemory' ▸ hsize) (hmemory' ▸ hstrays.fits)
    (hmemory' ▸ hstrays.source)
  refine ⟨k + 1, m'.pc, _, ?_, hmemory ▸ hstrays.source,
    within_of_climbs_below hsize h hfinish hmemory hcontents hpc hhalted⟩
  rw [stepped_add hrun, stepped, step, hhalted', if_neg (by decide), hfetch]
  rfl

/-- A machine that has halted stays as it is. -/
theorem stepped_halted {m : Machine} (h : m.halted = true) : ∀ {k : Nat}, stepped k m = .ok m
  | 0 => rfl
  | k + 1 => by
      rw [stepped, step, if_pos h]
      exact stepped_halted h

/-- A run goes through the machines after so many steps, if they do not halt. -/
theorem runFor_of_stepped (limit fuel : Nat) {m' : Machine} (hrunning : m'.halted = false) :
    ∀ {k : Nat} {m : Machine}, stepped k m = .ok m' →
      runFor limit (k + fuel) m = runFor limit fuel m'
  | 0, m, h => by
      cases h
      rw [Nat.zero_add]
  | k + 1, m, h => by
      rw [stepped, step] at h
      rw [Nat.add_right_comm, runFor]
      cases hhalted : m.halted with
      | true =>
          rw [hhalted, if_pos rfl] at h
          have hsame := stepped_halted hhalted (k := k)
          rw [show stepped k m = .ok m' from h] at hsame
          cases hsame
          rw [hhalted] at hrunning
          cases hrunning
      | false =>
          rw [hhalted, if_neg (by decide)] at h
          rw [if_neg (by decide)]
          cases hfetch : m.fetch with
          | error fault =>
              rw [hfetch] at h
              cases h
          | ok copy =>
              rw [hfetch] at h
              exact runFor_of_stepped limit fuel hrunning h

/-- A machine whose steps are known, with a limit of more than that many, gets to their end. -/
theorem runFor_of_steps (limit fuel : Nat) {k : Nat} {c c' : Contents} {pc pc' : Nat} {size : Nat}
    (hsize : size ≤ addressSpace) (h : Steps size k c pc c' pc') {m : Machine}
    (hmemory : m.memory.size = size) (hcontents : m.contents = c) (hpc : m.pc = pc)
    (hhalted : m.halted = false) :
    ∃ m', runFor limit (k + fuel) m = runFor limit fuel m' ∧ m'.memory.size = size ∧
      m'.contents = c' ∧ m'.pc = pc' ∧ m'.halted = false := by
  obtain ⟨m', hrun, hend⟩ := stepped_of_steps hsize h hmemory hcontents hpc hhalted
  exact ⟨m', runFor_of_stepped limit fuel hend.2.2.2 hrun, hend⟩

/-- A machine with at least as many steps to do as its limit allows does not halt. -/
theorem runFor_of_le {limit k : Nat} {c c' : Contents} {pc pc' : Nat} {size : Nat}
    (hsize : size ≤ addressSpace) (h : Steps size k c pc c' pc') :
    ∀ {fuel : Nat} {m : Machine}, fuel ≤ k → m.memory.size = size → m.contents = c → m.pc = pc →
      m.halted = false → (runFor limit fuel m).2 = some (.stepLimit limit) := by
  induction h with
  | none c pc =>
      intro fuel m hfuel hmemory hcontents hpc hhalted
      obtain rfl := Nat.le_zero.mp hfuel
      rw [runFor, hhalted]
      rfl
  | more first rest ih =>
      intro fuel m hfuel hmemory hcontents hpc hhalted
      cases fuel with
      | zero =>
          rw [runFor, hhalted]
          rfl
      | succ fuel =>
          subst hcontents hpc hmemory
          obtain ⟨copy, hfetch, hcontents', hpc', hhalted'⟩ := fetch_of_step hsize first
          rw [runFor, if_neg (by simp [hhalted]), hfetch]
          exact ih (by omega) (size_memory_perform m copy) hcontents' hpc' hhalted'

/-- A machine halts at an instruction that goes on at itself. -/
theorem runFor_of_halt {limit fuel : Nat} {m : Machine} {copy : Copy} (hhalted : m.halted = false)
    (hfetch : m.fetch = .ok copy) (hnext : copy.next = m.pc) :
    runFor limit (fuel + 1) m = (m.perform copy, none) := by
  have hend : (m.perform copy).halted = true := decide_eq_true hnext
  rw [runFor, if_neg (by simp [hhalted]), hfetch]
  cases fuel <;> simp [runFor, hend]

end Machine

end ByteJump
