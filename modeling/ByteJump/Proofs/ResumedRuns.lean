import ByteJump.Proofs.Run.Steps

set_option autoImplicit false

/-!
# Faults and limits of runs

A step changes the machine part by part, and each access to its memory can have a fault.  All of them
come before the first change, so a machine with a fault is as it was, and the fault names the first
place that is not in the memory.  A run that was stopped, whatever stopped it, is resumed as if it had
not been.

The step of the machine is written as one change of its state.  `execute` does the same in the
small: it reads a field, then the next one, reads the byte, writes it, and moves on, each of these
an action that may fail.  That both agree is the content of `execute_eq`, so the order of accesses
and the state at a fault can be read off the parts.  Which access fails is said by a list of the
places an instruction touches, in order.  The second half is about runs with a limit: `Rounds` is
a run in the large, as a relation, and from it come the facts on runs that are resumed.
-/

namespace ByteJump

open Memory

namespace Machine

/-! ## Steps part by part -/

/-- A field of the instruction at `pc`, read from the memory. -/
def readField (offset : Nat) : EStateM Fault Machine Nat := do
  match (← get).field offset with
  | .ok n => return n
  | .error fault => throw fault

/-- The byte at an address. -/
def readByte (address : Nat) : EStateM Fault Machine UInt8 := do
  let m ← get
  if address < m.memory.size then return m.memory.getD address 0
  else throw (.outOfBounds m.pc address)

/-- A byte written to an address. -/
def writeByte (address : Nat) (byte : UInt8) : EStateM Fault Machine Unit := do
  let m ← get
  if address < m.memory.size then set { m with memory := m.memory.setIfInBounds address byte }
  else throw (.outOfBounds m.pc address)

/-- One step in the order in which a machine does it, and whether the machine has halted.  What was
changed before a fault stays changed. -/
def execute : EStateM Fault Machine Bool := do
  if (← get).halted then return true
  else do
    let source ← readField sourceField
    let destination ← readField destinationField
    let next ← readField nextField
    let byte ← readByte source
    writeByte destination byte
    modify fun m => { m with steps := m.steps + 1 }
    if next = (← get).pc then do
      modify fun m => { m with halted := true }
      return true
    else do
      modify fun m => { m with pc := next }
      return false

/-- The second part goes on where the first one ended well. -/
theorem run_bind {α β : Type} (x : EStateM Fault Machine α) (f : α → EStateM Fault Machine β)
    (m : Machine) :
    (x >>= f) m =
      match x m with
      | .ok a m' => f a m'
      | .error fault m' => .error fault m' := by
  show (x >>= f).run m = _
  rw [EStateM.run_bind, EStateM.run]
  cases x m <;> rfl

/-- A field that is read changes nothing. -/
theorem run_readField (offset : Nat) (m : Machine) :
    readField offset m =
      match m.field offset with
      | .ok n => .ok n m
      | .error fault => .error fault m := by
  show (match m.field offset with
    | .ok n => return n
    | .error fault => throw fault : EStateM Fault Machine Nat) m = _
  cases m.field offset <;> rfl

/-- A byte that is read changes nothing. -/
theorem run_readByte (address : Nat) (m : Machine) :
    readByte address m =
      if address < m.memory.size then .ok (m.memory.getD address 0) m
      else .error (.outOfBounds m.pc address) m := by
  show (if address < m.memory.size then _ else _ : EStateM Fault Machine UInt8) m = _
  split <;> rfl

/-- A byte outside of the memory is not written. -/
theorem run_writeByte (address : Nat) (byte : UInt8) (m : Machine) :
    writeByte address byte m =
      if address < m.memory.size then
        .ok () { m with memory := m.memory.setIfInBounds address byte }
      else .error (.outOfBounds m.pc address) m := by
  show (if address < m.memory.size then _ else _ : EStateM Fault Machine Unit) m = _
  split <;> rfl

theorem fetch_of_fields {m : Machine} {source destination next : Nat}
    (hsource : m.field sourceField = .ok source)
    (hdestination : m.field destinationField = .ok destination)
    (hnext : m.field nextField = .ok next) :
    m.fetch =
      if m.memory.size ≤ source then .error (.outOfBounds m.pc source)
      else if m.memory.size ≤ destination then .error (.outOfBounds m.pc destination)
      else .ok ⟨source, destination, next⟩ := by
  unfold fetch
  rw [hsource, hdestination, hnext]
  rfl

/-- The part of a step that changes the machine. -/
theorem run_change {m : Machine} {source destination next : Nat} (hhalted : m.halted = false)
    (hout : destination < m.memory.size) :
    (do
      writeByte destination (m.memory.getD source 0)
      modify fun m => { m with steps := m.steps + 1 }
      if next = (← get).pc then do
        modify fun m => { m with halted := true }
        return true
      else do
        modify fun m => { m with pc := next }
        return false : EStateM Fault Machine Bool) m =
      .ok (m.perform ⟨source, destination, next⟩).halted (m.perform ⟨source, destination, next⟩) := by
  rw [run_bind, run_writeByte, if_pos hout]
  show (if next = m.pc then _ else _ : EStateM Fault Machine Bool) _ = _
  by_cases hself : next = m.pc
  · rw [if_pos hself]
    simp only [perform, hself]
    rfl
  · rw [if_neg hself]
    simp only [perform, decide_eq_false hself]
    rw [← hhalted]
    rfl

/-- Done part by part, a step either takes place as a whole or leaves the machine as it is. -/
theorem execute_eq (m : Machine) :
    m.execute =
      match m.step with
      | .ok m' => .ok m'.halted m'
      | .error fault => .error fault m := by
  show (if m.halted = true then _ else _ : EStateM Fault Machine Bool) m = _
  unfold step
  cases hhalted : m.halted with
  | true =>
      rw [if_pos rfl, if_pos rfl]
      dsimp only
      rw [hhalted]
      rfl
  | false =>
      rw [if_neg (by decide), if_neg (by decide), run_bind, run_readField]
      cases hsource : m.field sourceField with
      | error fault =>
          unfold fetch
          rw [hsource]
          rfl
      | ok source =>
          dsimp only
          rw [run_bind, run_readField]
          cases hdestination : m.field destinationField with
          | error fault =>
              unfold fetch
              rw [hsource, hdestination]
              rfl
          | ok destination =>
              dsimp only
              rw [run_bind, run_readField]
              cases hnext : m.field nextField with
              | error fault =>
                  unfold fetch
                  rw [hsource, hdestination, hnext]
                  rfl
              | ok next =>
                  dsimp only
                  rw [run_bind, run_readByte, fetch_of_fields hsource hdestination hnext]
                  by_cases hin : source < m.memory.size
                  · rw [if_pos hin, if_neg (Nat.not_le.mpr hin)]
                    dsimp only
                    by_cases hout : destination < m.memory.size
                    · rw [run_change hhalted hout, if_neg (Nat.not_le.mpr hout)]
                    · rw [run_bind, run_writeByte, if_neg hout, if_pos (Nat.not_lt.mp hout)]
                  · rw [if_neg hin, if_pos (Nat.not_lt.mp hin)]

/-! ## Places an instruction touches

The places are listed in the order of the accesses: the three fields, then the source, then the
destination. -/

/-- Addresses have 64 bits, and the memory is smaller than all of them can name. -/
structure Addressable (m : Machine) : Prop where
  pc : m.pc < addressSpace
  memory : m.memory.size < addressSpace

/-- The places an instruction touches, in the order in which it does: the address of the first byte
and the number of bytes. -/
def touches (m : Machine) : List (Nat × Nat) :=
  [(m.pc + sourceField, addressSize), (m.pc + destinationField, addressSize),
    (m.pc + nextField, addressSize),
    (Bytes.number m.memory (m.pc + sourceField) addressSize, 1),
    (Bytes.number m.memory (m.pc + destinationField) addressSize, 1)]

/-- The address of the first place an instruction touches that is not in the memory. -/
def firstOutside (m : Machine) : Option Nat :=
  (m.touches.find? fun place => decide (m.memory.size < place.1 + place.2)).map Prod.fst

/-- A field at an address that does not overflow. -/
theorem field_of_lt {m : Machine} (offset : Nat) (h : m.pc + offset < addressSpace) :
    m.field offset =
      if m.memory.size < m.pc + offset + addressSize then .error (.outOfBounds m.pc (m.pc + offset))
      else .ok (Bytes.number m.memory (m.pc + offset) addressSize) := by
  have hadvance : advance m.pc offset = m.pc + offset := Nat.mod_eq_of_lt h
  have hword : Bytes.word? m.memory (m.pc + offset) =
      if m.pc + offset + addressSize ≤ m.memory.size then
        some (Bytes.number m.memory (m.pc + offset) addressSize)
      else none := rfl
  unfold field
  rw [hadvance]
  dsimp only
  rw [hword]
  by_cases hin : m.memory.size < m.pc + offset + addressSize
  · rw [if_pos hin, if_neg (Nat.not_le.mpr hin)]
  · rw [if_neg hin, if_pos (Nat.not_lt.mp hin)]

/-- The fault of an instruction names the first place that is not in the memory. -/
theorem fetch_eq_firstOutside {m : Machine} (h : m.Addressable) :
    m.fetch =
      match m.firstOutside with
      | some address => .error (.outOfBounds m.pc address)
      | none => .ok ⟨Bytes.number m.memory (m.pc + sourceField) addressSize,
          Bytes.number m.memory (m.pc + destinationField) addressSize,
          Bytes.number m.memory (m.pc + nextField) addressSize⟩ := by
  have hmemory := h.memory
  have hsource := field_of_lt (m := m) sourceField h.pc
  by_cases h₁ : m.memory.size < m.pc + sourceField + addressSize
  · rw [if_pos h₁] at hsource
    simp [firstOutside, touches, h₁, fetch, hsource, bind, Except.bind]
  -- a field that lies in the memory leaves no room for an overflow of the next one
  have hdestination := field_of_lt (m := m) destinationField (by
    simp only [sourceField, addressSize, destinationField] at *
    omega)
  by_cases h₂ : m.memory.size < m.pc + destinationField + addressSize
  · rw [if_pos h₂] at hdestination
    rw [if_neg h₁] at hsource
    simp [firstOutside, touches, h₁, h₂, fetch, hsource, hdestination, bind, Except.bind]
  have hnext := field_of_lt (m := m) nextField (by
    simp only [addressSize, destinationField, nextField] at *
    omega)
  rw [if_neg h₁] at hsource
  rw [if_neg h₂] at hdestination
  by_cases h₃ : m.memory.size < m.pc + nextField + addressSize
  · rw [if_pos h₃] at hnext
    simp [firstOutside, touches, h₁, h₂, h₃, fetch, hsource, hdestination, hnext, bind, Except.bind]
  rw [if_neg h₃] at hnext
  rw [fetch_of_fields hsource hdestination hnext]
  simp only [firstOutside, touches, List.find?_cons, h₁, h₂, h₃, decide_false, Nat.lt_succ_iff]
  by_cases h₄ : m.memory.size ≤ Bytes.number m.memory (m.pc + sourceField) addressSize
  · simp [h₄]
  by_cases h₅ : m.memory.size ≤ Bytes.number m.memory (m.pc + destinationField) addressSize
  · simp [h₄, h₅]
  · simp [h₄, h₅]

/-! ## Runs round by round

A run ends when the machine is halted, when the limit is reached, or with a fault.  The lemmas
`run_of_…` unfold one round for each of these cases. -/

/-- The instruction at `pc` can be done and goes on at itself. -/
def SelfJump (m : Machine) : Prop := ∃ copy, m.fetch = .ok copy ∧ copy.next = m.pc

/-- A run with a limit, done round by round: in each round the machine is asked whether it has
halted, the steps it has done are compared with the limit, and one step is done in place.  So many
rounds lead to the machine and the fault that the run ends with. -/
inductive Rounds (limit : Nat) : Nat → Machine → Machine × Option Fault → Prop
  | halted {m : Machine} (h : m.halted = true) : Rounds limit 0 m (m, none)
  | exhausted {m : Machine} (h : m.halted = false) (hsteps : limit ≤ m.steps) :
      Rounds limit 0 m (m, some (.stepLimit limit))
  | faulty {m m' : Machine} {fault : Fault} (h : m.halted = false) (hsteps : m.steps < limit)
      (hstep : m.execute = .error fault m') : Rounds limit 1 m (m', some fault)
  | more {n : Nat} {m m' : Machine} {halted : Bool} {result : Machine × Option Fault}
      (h : m.halted = false) (hsteps : m.steps < limit) (hstep : m.execute = .ok halted m')
      (rest : Rounds limit n m' result) : Rounds limit (n + 1) m result

/-- A machine that is halted stays as it is. -/
theorem run_of_halted {m : Machine} (h : m.halted = true) (limit : Nat) :
    m.run limit = (m, none) := by
  unfold run
  cases limit - m.steps <;> simp [runFor, h]

/-- The limit is reached, and the run ends without a step. -/
theorem run_of_le {m : Machine} {limit : Nat} (h : m.halted = false) (hsteps : limit ≤ m.steps) :
    m.run limit = (m, some (.stepLimit limit)) := by
  simp [run, Nat.sub_eq_zero_of_le hsteps, runFor, h]

/-- Below the limit a run takes a step and goes on. -/
theorem run_of_lt {m : Machine} {limit : Nat} (h : m.halted = false) (hsteps : m.steps < limit) :
    m.run limit =
      match m.fetch with
      | .ok copy => (m.perform copy).run limit
      | .error fault => (m, some fault) := by
  have hfuel : limit - m.steps = (limit - (m.steps + 1)) + 1 := by omega
  unfold run
  rw [hfuel, runFor, if_neg (by simp [h])]
  rfl

theorem step_of_running {m : Machine} (h : m.halted = false) :
    m.step =
      match m.fetch with
      | .ok copy => .ok (m.perform copy)
      | .error fault => .error fault := by
  cases hfetch : m.fetch <;> simp [step, h, hfetch]

/-- A run ends after no more rounds than there are steps left. -/
theorem exists_rounds (limit : Nat) : ∀ (fuel : Nat) {m : Machine}, limit - m.steps = fuel →
    ∃ n ≤ fuel, Rounds limit n m (m.run limit) := by
  intro fuel
  induction fuel with
  | zero =>
      intro m hfuel
      cases hhalted : m.halted with
      | true =>
          rw [run_of_halted hhalted]
          exact ⟨0, Nat.le_refl 0, .halted hhalted⟩
      | false =>
          have hsteps : limit ≤ m.steps := Nat.sub_eq_zero_iff_le.mp hfuel
          rw [run_of_le hhalted hsteps]
          exact ⟨0, Nat.le_refl 0, .exhausted hhalted hsteps⟩
  | succ fuel ih =>
      intro m hfuel
      cases hhalted : m.halted with
      | true =>
          rw [run_of_halted hhalted]
          exact ⟨0, Nat.zero_le _, .halted hhalted⟩
      | false =>
          have hsteps : m.steps < limit := by omega
          have hexecute := execute_eq m
          rw [run_of_lt hhalted hsteps]
          rw [step_of_running hhalted] at hexecute
          cases hfetch : m.fetch with
          | error fault =>
              rw [hfetch] at hexecute
              exact ⟨1, by omega, .faulty hhalted hsteps hexecute⟩
          | ok copy =>
              rw [hfetch] at hexecute
              have hleft : limit - (m.perform copy).steps = fuel := by
                show limit - (m.steps + 1) = fuel
                omega
              obtain ⟨n, hn, hrounds⟩ := ih hleft
              exact ⟨n + 1, Nat.succ_le_succ hn, .more hhalted hsteps hexecute hrounds⟩

/-- Rounds lead to one result only. -/
theorem Rounds.eq_run {limit n : Nat} {m : Machine} {result : Machine × Option Fault}
    (h : Rounds limit n m result) : result = m.run limit := by
  induction h with
  | halted h => rw [run_of_halted h]
  | exhausted h hsteps => rw [run_of_le h hsteps]
  | @faulty m m' fault h hsteps hstep =>
      rw [execute_eq, step_of_running h] at hstep
      rw [run_of_lt h hsteps]
      cases hfetch : m.fetch with
      | ok copy =>
          rw [hfetch] at hstep
          cases hstep
      | error fault' =>
          rw [hfetch] at hstep
          cases hstep
          rfl
  | @more n m m' halted result h hsteps hstep _ ih =>
      rw [execute_eq, step_of_running h] at hstep
      rw [run_of_lt h hsteps, ih]
      cases hfetch : m.fetch with
      | ok copy =>
          rw [hfetch] at hstep
          cases hstep
          rfl
      | error fault' =>
          rw [hfetch] at hstep
          cases hstep

/-- A run that was stopped goes on, with a larger limit, as if it had not been. -/
theorem run_run {l₁ l₂ : Nat} (hle : l₁ ≤ l₂) (fuel : Nat) : ∀ {m : Machine},
    l₁ - m.steps = fuel → (m.run l₁).1.run l₂ = m.run l₂ := by
  induction fuel with
  | zero =>
      intro m hfuel
      cases hhalted : m.halted with
      | true => rw [run_of_halted hhalted l₁]
      | false => rw [run_of_le hhalted (Nat.sub_eq_zero_iff_le.mp hfuel)]
  | succ fuel ih =>
      intro m hfuel
      cases hhalted : m.halted with
      | true => rw [run_of_halted hhalted l₁]
      | false =>
          have hsteps : m.steps < l₁ := by omega
          rw [run_of_lt hhalted hsteps]
          cases hfetch : m.fetch with
          | error fault => rfl
          | ok copy =>
              have hleft : l₁ - (m.perform copy).steps = fuel := by
                show l₁ - (m.steps + 1) = fuel
                omega
              rw [ih hleft, run_of_lt hhalted (Nat.lt_of_lt_of_le hsteps hle), hfetch]

/-- A run that ends without a fault got to an instruction that goes on at itself. -/
theorem selfJump_of_run (limit fuel : Nat) : ∀ {m : Machine}, limit - m.steps = fuel →
    m.halted = false → (m.run limit).2 = none →
    ∃ k m', stepped k m = .ok m' ∧ m'.halted = false ∧ m'.SelfJump ∧ m.steps + k < limit := by
  induction fuel with
  | zero =>
      intro m hfuel hhalted hrun
      rw [run_of_le hhalted (Nat.sub_eq_zero_iff_le.mp hfuel)] at hrun
      cases hrun
  | succ fuel ih =>
      intro m hfuel hhalted hrun
      have hsteps : m.steps < limit := by omega
      rw [run_of_lt hhalted hsteps] at hrun
      cases hfetch : m.fetch with
      | error fault =>
          rw [hfetch] at hrun
          cases hrun
      | ok copy =>
          rw [hfetch] at hrun
          by_cases hself : copy.next = m.pc
          · exact ⟨0, m, rfl, hhalted, ⟨copy, hfetch, hself⟩, hsteps⟩
          · have hleft : limit - (m.perform copy).steps = fuel := by
              show limit - (m.steps + 1) = fuel
              omega
            obtain ⟨k, m', hstepped, hhalted', hjump, hlimit⟩ :=
              ih hleft (decide_eq_false hself) hrun
            refine ⟨k + 1, m', ?_, hhalted', hjump, ?_⟩
            · rw [stepped, step_of_running hhalted, hfetch]
              exact hstepped
            · have hless : m.steps + 1 + k < limit := hlimit
              omega

/-- A machine that gets to an instruction that goes on at itself halts. -/
theorem run_of_selfJump {limit k : Nat} {m m' : Machine} (hstepped : stepped k m = .ok m')
    (hhalted : m'.halted = false) (hjump : m'.SelfJump) (hlimit : m.steps + k < limit) :
    (m.run limit).2 = none := by
  obtain ⟨copy, hfetch, hnext⟩ := hjump
  have hfuel : limit - m.steps = k + (limit - m.steps - k - 1 + 1) := by omega
  unfold run
  rw [hfuel, runFor_of_stepped limit _ hhalted hstepped, runFor_of_halt hhalted hfetch hnext]

/-- A step with a fault leaves the machine as it is, and the fault names the first place that the
instruction touches outside the memory.  Runs are resumed as if they had not been stopped.  A run ends
without a fault if the machine has halted or gets, within the limit, to an instruction that goes on at
itself; and in any case it ends. -/
theorem runs_resume (m : Machine) :
    (∀ fault m', m.execute = .error fault m' → m' = m ∧ m'.execute = .error fault m' ∧
      m.step = .error fault) ∧
    (m.Addressable → ∀ fault, m.step = .error fault ↔ m.halted = false ∧
      ∃ address, m.firstOutside = some address ∧ fault = .outOfBounds m.pc address) ∧
    (∀ l₁ l₂, l₁ ≤ l₂ → (m.run l₁).1.run l₂ = m.run l₂) ∧
    (∀ limit, (m.run limit).2 = none ↔ m.halted = true ∨
      ∃ k m', stepped k m = .ok m' ∧ m'.halted = false ∧ m'.SelfJump ∧ m.steps + k < limit) ∧
    (∀ limit, (∃ n ≤ limit - m.steps, Rounds limit n m (m.run limit)) ∧
      ∀ n result, Rounds limit n m result → result = m.run limit) := by
  refine ⟨fun fault m' h => ?_, fun haddress fault => ?_, fun l₁ l₂ hle => run_run hle _ rfl,
    fun limit => ⟨fun hrun => ?_, ?_⟩,
    fun limit => ⟨exists_rounds limit _ rfl, fun _ _ h => h.eq_run⟩⟩
  · have hexecute := h
    rw [execute_eq] at hexecute
    cases hstep : m.step with
    | ok m₁ =>
        rw [hstep] at hexecute
        cases hexecute
    | error fault' =>
        rw [hstep] at hexecute
        cases hexecute
        exact ⟨rfl, h, rfl⟩
  · cases hhalted : m.halted with
    | true =>
        rw [step, if_pos hhalted]
        simp
    | false =>
        rw [step_of_running hhalted, fetch_eq_firstOutside haddress]
        cases m.firstOutside with
        | none => simp
        | some address => simp [eq_comm]
  · cases hhalted : m.halted with
    | true => exact Or.inl rfl
    | false => exact Or.inr (selfJump_of_run limit _ rfl hhalted hrun)
  · rintro (hhalted | ⟨k, m', hstepped, hhalted', hjump, hlimit⟩)
    · rw [run_of_halted hhalted]
    · exact run_of_selfJump hstepped hhalted' hjump hlimit

/-- An instruction that overwrites its own successor, and behind it one that copies from outside the
memory: a run with room for one step, resumed with room for more. -/
theorem runs_resume_stopped :
    let words : List Nat := [40, 16, 24, 2 ^ (64 : Nat) - 1, 0, 24]
    let m : Machine := ⟨(words.flatMap (Bytes.ofNat addressSize)).toArray, 0, 3, false⟩
    let stopped := (m.run 4).1
    let fault := Fault.outOfBounds 24 (2 ^ (64 : Nat) - 1)
    stopped.Addressable ∧ stopped.step = .error fault ∧ stopped.execute = .error fault stopped ∧
      stopped.run 10 = m.run 10 ∧ (m.run 10).2.isSome = true ∧
      ∃ n ≤ 7, Rounds 10 n m (m.run 10) := by
  intro words m stopped fault
  obtain ⟨-, -, hresume, -, hrounds⟩ := runs_resume m
  obtain ⟨hatomic, hstep, -⟩ := runs_resume stopped
  have haddressable : stopped.Addressable := ⟨by decide +kernel, by decide +kernel⟩
  have houtside : stopped.firstOutside = some (2 ^ (64 : Nat) - 1) := by decide +kernel
  have hpc : stopped.pc = 24 := by decide +kernel
  have hlimit : (m.run 10).2.isSome = true := by decide +kernel
  have hfault : stopped.step = .error fault :=
    (hstep haddressable fault).mpr ⟨by decide +kernel, _, houtside, by rw [hpc]⟩
  have hexecute : stopped.execute = .error fault stopped := by rw [execute_eq, hfault]
  obtain ⟨-, hagain, -⟩ := hatomic fault stopped hexecute
  obtain ⟨⟨n, hn, hrun⟩, hunique⟩ := hrounds 10
  exact ⟨haddressable, hfault, hagain, hresume 4 10 (by decide), hlimit, n, hn,
    hunique n _ hrun ▸ hrun⟩

end Machine

end ByteJump
