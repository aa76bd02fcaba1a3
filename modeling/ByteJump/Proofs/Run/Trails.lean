import ByteJump.Proofs.Run.Steps

set_option autoImplicit false

/-!
# Trails

Steps told by what they copy.  An instruction is read when it is reached, so a trail says what became
of its fields by then, and not what they were when the instruction was laid down.
-/

namespace ByteJump

open Memory

/-- What the instruction at an address says by now: the addresses it copies between, and its
successor. -/
def Contents.copy (c : Contents) (pc : Nat) : Machine.Copy :=
  ⟨c.number (pc + sourceField) addressSize, c.number (pc + destinationField) addressSize,
    c.number (pc + nextField) addressSize⟩

/-- The copies, each by an instruction below the next one, lead from one place to another. -/
inductive Trail (size : Nat) : List Machine.Copy → Contents → Nat → Contents → Nat → Prop
  | none (c : Contents) (pc : Nat) : Trail size [] c pc c pc
  | more {copy : Machine.Copy} {copies : List Machine.Copy} {c c' c'' : Contents} {pc pc' pc'' : Nat}
      (first : Step size c pc c' pc') (rises : pc < pc') (reads : c.copy pc = copy)
      (rest : Trail size copies c' pc' c'' pc'') : Trail size (copy :: copies) c pc c'' pc''

section Trail

variable {size pc pc' pc'' : Nat} {copy : Machine.Copy} {copies copies' : List Machine.Copy}
  {c c' c'' : Contents}

theorem Trail.one (h : Step size c pc c' pc') (rises : pc < pc') (reads : c.copy pc = copy) :
    Trail size [copy] c pc c' pc' := .more h rises reads (.none _ _)

theorem Trail.append (h : Trail size copies c pc c' pc') (h' : Trail size copies' c' pc' c'' pc'') :
    Trail size (copies ++ copies') c pc c'' pc'' := by
  induction h with
  | none c pc => exact h'
  | more first rises reads rest ih => exact .more first rises reads (ih h')

theorem Trail.climbs (h : Trail size copies c pc c' pc') :
    Climbs size copies.length c pc c' pc' := by
  induction h with
  | none c pc => exact .none c pc
  | more first rises _ _ ih => exact .more first rises ih

end Trail

namespace Machine

variable {m m' m'' : Machine} {copies copies' : List Copy}

/-- The machine does the copies one after the other: no instruction has a fault, and it does not halt
before the last one. -/
inductive Performs : List Copy → Machine → Machine → Prop
  | none (m : Machine) : Performs [] m m
  | more {copy : Copy} {copies : List Copy} {m m' : Machine} (running : m.halted = false)
      (fetch : m.fetch = .ok copy) (rest : Performs copies (m.perform copy) m') :
      Performs (copy :: copies) m m'

theorem Performs.append (h : Performs copies m m') (h' : Performs copies' m' m'') :
    Performs (copies ++ copies') m m'' := by
  induction h with
  | none m => exact h'
  | more running fetch _ ih => exact .more running fetch (ih h')

/-- A machine that goes on does the copy that its contents say. -/
theorem performs_of_step {size pc pc' : Nat} {c c' : Contents} (hsize : size ≤ addressSpace)
    (h : Step size c pc c' pc') (hmemory : m.memory.size = size) (hcontents : m.contents = c)
    (hpc : m.pc = pc) (hhalted : m.halted = false) : ∃ m', Performs [c.copy pc] m m' ∧
      m'.memory.size = size ∧ m'.contents = c' ∧ m'.pc = pc' ∧ m'.halted = false := by
  subst hcontents hpc hmemory
  obtain ⟨copy, hfetch, hcontents', hpc', hhalted'⟩ := fetch_of_step hsize h
  have hcopy : m.fetch = .ok (m.contents.copy m.pc) :=
    fetch_eq hsize h.fits h.source h.destination
  obtain rfl : copy = m.contents.copy m.pc := Except.ok.inj (hfetch.symm.trans hcopy)
  exact ⟨m.perform _, .more hhalted hfetch (.none _), size_memory_perform m _, hcontents', hpc',
    hhalted'⟩

/-- A machine does the copies of a trail. -/
theorem performs_of_trail {size pc pc' : Nat} {c c' : Contents} (hsize : size ≤ addressSpace)
    (h : Trail size copies c pc c' pc') : ∀ {m : Machine}, m.memory.size = size →
    m.contents = c → m.pc = pc → m.halted = false → ∃ m', Performs copies m m' ∧
      m'.memory.size = size ∧ m'.contents = c' ∧ m'.pc = pc' ∧ m'.halted = false := by
  induction h with
  | none c pc =>
      intro m hmemory hcontents hpc hhalted
      exact ⟨m, .none m, hmemory, hcontents, hpc, hhalted⟩
  | more first _ reads _ ih =>
      intro m hmemory hcontents hpc hhalted
      obtain ⟨m₁, hfirst, hmemory', hcontents', hpc', hhalted'⟩ :=
        performs_of_step hsize first hmemory hcontents hpc hhalted
      rw [reads] at hfirst
      obtain ⟨m', hrest, hend⟩ := ih hmemory' hcontents' hpc' hhalted'
      exact ⟨m', hfirst.append hrest, hend⟩

end Machine

end ByteJump
