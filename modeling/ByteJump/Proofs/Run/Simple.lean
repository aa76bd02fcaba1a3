import ByteJump.Proofs.Run.Points

set_option autoImplicit false

/-!
# Running statements that hold no others

The code of a statement goes from where it starts to where it ends, and what a run of the source
knows of memory behind the statement is in the data then.  Emitting gives the registers that the
source says to the variables.

`Compiles L σ run s t` relates emitted code to the run of a statement: the slots behind the code
are `σ`, and for every store that is known in front of it the machine does what `run` says, so
that the new store is known behind it.  The lemmas of this module are its cases for statements
without statements inside.  Each is an expression that is evaluated, followed by a few copies:
into the register of a variable, or through a pointer that was put aside while the value was
computed.
-/

namespace ByteJump

namespace Emit

open Assembly Memory Linked

variable (L : Linked) {s t u : State}

/-- The code between two states does what `run` does, and `σ` is allocated behind it. -/
structure Compiles (σ : Source.Slots) (run : Nat → Source.Store → Source.Outcome) (s t : State) :
    Prop where
  slots : t.slots = σ
  serial : s.serial ≤ t.serial
  points : ∀ n ≤ s.serial, t.points.lookup n = s.points.lookup n
  entry : t.entry = s.entry
  runs : ∀ rounds m d, Known L registerCount m d →
    Follows L t rounds d s.position t.position (run rounds m)

variable {L}

/-- Code that does something, in front of what follows. -/
theorem Does.follows {rounds : Nat} {m : Source.Store} {d : Contents}
    (h : Does L s t d (Known L registerCount m)) :
    Follows L t rounds d s.position t.position (.done m) :=
  h.travels (.refl t)

/-- Slots are what the bindings and the mark say, so they stay when these do. -/
theorem Kept.slots (h : Kept s t) (hmark : t.mark = s.mark) : t.slots = s.slots := by
  unfold State.slots
  rw [hmark, h.bindings, h.placed]

/-- Code that binds nothing. -/
theorem Compiles.of_kept {run : Nat → Source.Store → Source.Outcome} (h : Kept s t)
    (hmark : t.mark = s.mark) (hruns : ∀ rounds m d, Known L registerCount m d →
      Follows L t rounds d s.position t.position (run rounds m)) :
    Compiles L s.slots run s t :=
  ⟨h.slots hmark, Nat.le_of_eq h.serial.symm, fun n _ => by rw [h.points], h.entry, hruns⟩

/-- Nothing is emitted. -/
theorem Compiles.nothing : Compiles L s.slots (fun _ m => .done m) s s :=
  .of_kept (.refl s) rfl fun _ _ _ hknown => Does.follows (.nothing rfl hknown)

/-! ## Values -/

/-- What is known of all registers is known of those below the mark. -/
theorem Good.below (h : Good s) {m : Source.Store} {d : Contents}
    (hknown : Known L registerCount m d) : Known L s.slots.mark m d :=
  hknown.below h.mark (Nat.le_refl _)

variable (L)

/-- The value is left behind, and the registers it was computed in are forgotten. -/
theorem evaluate_compiles {vars : Variable → Prop} {value : Expr} (hproper : value.Proper vars) :
    Exec (expr value) s fun _ t =>
      Compiles L s.slots (Source.action L.world s.slots (.evaluate value)) s t := by
  refine .good fun hgood => ?_
  refine (expr_exec L hproper (show s.slots.registers = _ from rfl) (Nat.le_refl _)).mono ?_
  intro _ t _ _ hvalue
  refine .of_kept hvalue.kept hvalue.mark fun rounds m d hknown => ?_
  rw [Source.action]
  dsimp only
  cases hx : Source.eval L.world s.slots m value with
  | none => trivial
  | some x =>
      refine ((hvalue.does m x d (hgood.below hknown) hx).mono fun _ d' hd' => ?_).follows
      exact hknown.forget (Nat.le_refl _) hd'.other

/-! ## Variables

A declaration copies the value from the immediate register to a register of its own, the first one
that is free.  From then on the variable is bound to it. -/

variable {L}

/-- Bytes copied one by one are a number written somewhere else. -/
theorem moved_eq_write : ∀ {length source destination : Nat} {d : Contents},
    source + length ≤ destination ∨ destination + length ≤ source →
    (∀ i < length, L.IsData (source + i)) →
    moved L d source destination length = d.write destination length (d.number source length)
  | 0, _, _, _, _, _ => rfl
  | length + 1, source, destination, d, h, hdata => by
      have hfirst : L.read d source = d source := read_data (hdata 0 (Nat.succ_pos length))
      have hlow : (d.number source (length + 1)) % 256 = (d source).toNat := by
        have hbyte := (d source).toNat_lt
        rw [Contents.number]
        omega
      have hhigh : (d.number source (length + 1)) / 256 = d.number (source + 1) length := by
        have hbyte := (d source).toNat_lt
        rw [Contents.number]
        omega
      have hrest : (d.set destination (d source)).number (source + 1) length =
          d.number (source + 1) length :=
        Contents.number_congr fun i hi => Contents.set_of_ne (by omega)
      rw [moved, hfirst, moved_eq_write (by omega) fun i hi => ?_, hrest, Contents.write, hlow,
        hhigh, UInt8.ofNat_toNat]
      have hnext := hdata (i + 1) (by omega)
      rwa [Nat.add_comm i 1, ← Nat.add_assoc] at hnext

theorem isData_immediate {i : Nat} (h : i < registerSize) : L.IsData (immediate + i) := by
  refine isData_of_lt ?_
  have htable : immediate + registerSize ≤ addTable := by decide
  omega

/-- Low bytes of the immediate register copied into a register. -/
theorem save_exec (L : Linked) {r width : Nat} (hr : r < registerCount)
    (hwidth : width ≤ registerSize) :
    Exec (copyRange immediate (register r) width) s fun _ t => Kept s t ∧ t.mark = s.mark ∧
      ∀ d, Does L s t d fun d' => d' = d.write (register r) width (d.number immediate width) := by
  obtain ⟨-, hlow, hhigh⟩ := register_eq hr
  refine (copyRange_exec L (by omega)).mono fun _ t _ _ h => ?_
  obtain ⟨hkept, hmark, heffect⟩ := h
  refine ⟨hkept, hmark, fun d => ?_⟩
  refine ((heffect fun i hi => Or.inr (isData_immediate (by omega))).does d).mono ?_
  rintro - _ rfl
  exact moved_eq_write (by omega) fun i hi => isData_immediate (by omega)

/-- A register for a variable. -/
def State.bound (s : State) (v : Variable) (r : Nat) : State :=
  { s with bindings := s.bindings.bind v r }

theorem Good.bound (h : Good s) (v : Variable) (r : Nat) : Good (s.bound v r) :=
  ⟨h.position, h.closed, h.bytes, h.mark, h.points⟩

theorem Grows.bound (s : State) (v : Variable) (r : Nat) : Grows s (s.bound v r) :=
  .of_eq rfl rfl rfl fun _ _ h => h

/-- Binding a variable adds no code. -/
theorem Exec.bound {v : Variable} {r : Nat} {f : PUnit → Emitter Unit}
    {Q : Unit → State → Prop} (h : Exec (f ⟨⟩) (s.bound v r) Q) :
    Exec ((modify fun s => { s with bindings := s.bindings.bind v r }) >>= f) s Q :=
  .from (run_bind (b := ⟨⟩) rfl) (fun hgood => hgood.bound v r) (.bound s v r) h

variable (L)

/-- The value is evaluated, saved, and then the register is given to the variable, and only then.
-/
theorem define_compiles {vars : Variable → Prop} {v : Variable} {value : Expr}
    (hproper : value.Proper vars) :
    Exec (action (.define v value)) s fun _ t =>
      Compiles L (s.slots.action (.define v value))
        (Source.action L.world s.slots (.define v value)) s t := by
  refine .good fun hgood => ?_
  rw [action]
  refine (expr_exec L hproper (show s.slots.registers = _ from rfl) (Nat.le_refl _)).bind ?_
  intro _ u₁ _ _ hvalue
  refine (allocate_exec 1 v.site).bind fun r u₂ _ hgrows₂ hallocate => ?_
  obtain ⟨hstill, rfl, hmark, hcount⟩ := hallocate
  refine .bound ?_
  refine (save_exec L (by omega) (Nat.le_refl _)).mono fun _ t _ hgrows hsave => ?_
  obtain ⟨hkept, hmark', hdoes⟩ := hsave
  have hkept₂ := hvalue.kept.trans hstill.kept
  have hslots : t.slots = (u₂.bound v u₁.mark).slots := hkept.slots hmark'
  refine ⟨?_, ?_, fun n _ => ?_, ?_, fun rounds m d hknown => ?_⟩
  · rw [hslots, Source.Slots.action, Source.Slots.bind]
    simp only [State.slots, State.bound, Bindings.bind, hkept₂.bindings, hkept₂.placed, hmark,
      hvalue.mark]
  · exact Nat.le_of_eq (hkept.serial.trans hkept₂.serial).symm
  · rw [hkept.points]
    exact congrArg _ hkept₂.points
  · exact hkept.entry.trans hkept₂.entry
  · rw [Source.action]
    dsimp only
    cases hx : Source.eval L.world s.slots m value with
    | none => trivial
    | some x =>
        refine Does.follows ((hvalue.does m x d (hgood.below hknown) hx).trans
          ((hgrows₂.trans (.bound u₂ v u₁.mark)).trans hgrows) fun d₁ hd₁ => ?_)
        refine (hstill.does L d₁).trans ((Grows.bound u₂ v u₁.mark).trans hgrows) ?_
        rintro _ rfl
        have hcode : Does L u₂ t d₁ _ := ⟨(hdoes d₁).run⟩
        refine hcode.mono ?_
        rintro - _ rfl
        rw [hd₁.value, hvalue.mark]
        exact (hknown.forget (Nat.le_refl _) hd₁.other).write

/-- An array takes its registers, and no byte changes. -/
theorem reserve_compiles {v : Variable} :
    Exec (action (.reserve v)) s fun _ t =>
      Compiles L (s.slots.action (.reserve v)) (Source.action L.world s.slots (.reserve v)) s t := by
  rw [action]
  cases hcount : v.count with
  | none => exact .throw
  | some count =>
      refine (allocate_exec count v.site).bind fun r u _ _ hallocate => ?_
      obtain ⟨hstill, rfl, hmark, -⟩ := hallocate
      refine .from (y := Pure.pure ⟨⟩) rfl (fun hgood => hgood.bound v s.mark)
        (.bound u v s.mark) (.pure ?_)
      refine ⟨?_, Nat.le_of_eq hstill.kept.serial.symm, fun n _ => ?_, hstill.kept.entry,
        fun rounds m d hknown => ?_⟩
      · rw [Source.Slots.action, Source.Slots.bind, hcount]
        simp only [State.slots, Bindings.bind, hstill.kept.bindings,
          hstill.kept.placed, hmark, Option.getD_some]
      · exact congrArg _ hstill.kept.points
      · rw [Source.action]
        exact Does.follows (.nothing hstill.position hknown)

/-! ## Stores

The pointer is computed first and kept in a register while the value is computed.  Since the value
may use any register above that one, the lemmas below say that the saved pointer is still there
afterwards, and that what was known outside of the registers in use still is. -/

/-- The low byte of the immediate register stored at the address in a register. -/
theorem storeThrough_exec {r : Nat} (hr : r < registerCount) :
    Exec (patched (wholeField (register r) destinationField) immediate 0) s fun _ t =>
      Kept s t ∧ t.mark = s.mark ∧ ∀ d a, d.number (register r) addressSize = a → L.IsData a →
        Does L s t d fun d' => d' = d.set a (d immediate) := by
  obtain ⟨-, -, hhigh⟩ := register_eq hr
  have hfields : ∀ f ∈ wholeField (register r) destinationField,
      f.1 < addTable ∧ f.2 < nextField := by
    intro f hf
    obtain ⟨i, hi, rfl⟩ := List.mem_map.mp hf
    have hi := List.mem_range.mp hi
    simp only [addressSize, registerSize, destinationField, nextField] at hi hhigh ⊢
    omega
  have hnodup : ((wholeField (register r) destinationField).map Prod.snd).Nodup := by
    rw [wholeField, List.map_map]
    show ((List.range addressSize).map (destinationField + ·)).Nodup
    decide
  have hsource : ∀ f ∈ wholeField (register r) destinationField, ∀ i < addressSize,
      f.2 ≠ sourceField + i := by
    intro f hf i hi
    obtain ⟨j, hj, rfl⟩ := List.mem_map.mp hf
    simp only [addressSize, destinationField, sourceField] at hi ⊢
    omega
  refine (patched_exec L hfields hnodup (by decide)).mono fun _ t _ _ hpatched => ?_
  obtain ⟨hkept, hmark, hdoes⟩ := hpatched
  refine ⟨hkept, hmark, fun d a ha hdata => ?_⟩
  have himmediate : L.IsData immediate := isData_of_lt (by decide)
  have hstore := hdoes d immediate a
    ((number_of_none hsource).trans (by decide)) ((number_wholeField _ _ _).trans ha)
    (Or.inl himmediate) hdata
  rwa [read_data himmediate] at hstore

variable {L}

/-- Only the saved address changed when a value is left and its low bytes are saved in a register. -/
theorem Leaves.save {r x : Nat} {temps : List Nat} {d d' : Contents} (h : Leaves temps x d d') :
    ∀ a, a < immediate ∨ immediate + registerSize ≤ a →
      a ∉ temps ++ (List.range addressSize).map (register r + ·) →
      d'.write (register r) addressSize (d'.number immediate addressSize) a = d a := by
  intro a ha htemp
  rw [List.mem_append, not_or] at htemp
  have hout : a < register r ∨ register r + addressSize ≤ a := by
    by_contra hin
    exact htemp.2 (List.mem_map.mpr ⟨a - register r, List.mem_range.mpr (by omega), by omega⟩)
  rw [Contents.write_outside hout]
  exact h.other a ha htemp.1

/-- A saved address is still there when another value was left behind it. -/
theorem Leaves.saved {r x y : Nat} {temps temps' : List Nat} {d d₁ d₂ : Contents}
    (hr : r < registerCount) (h : Leaves temps x d d₁)
    (h' : Leaves temps' y (d₁.write (register r) addressSize (d₁.number immediate addressSize)) d₂)
    (hbehind : ∀ a ∈ temps', register r + addressSize ≤ a) :
    d₂.number (register r) addressSize = x % addressSpace := by
  obtain ⟨-, hlow, -⟩ := register_eq hr
  have hsame := Contents.number_congr fun i (hi : i < addressSize) =>
    h'.other (register r + i) (by omega) fun htemp => by
      have hrange := hbehind _ htemp
      omega
  have hnumber : d₁.number immediate addressSize = x % 256 ^ addressSize :=
    h.low_number (by decide)
  rw [hsame, Contents.number_write, hnumber, Nat.mod_mod]
  rfl

variable (L)

/-- What is known is still known once the pointer of a store was computed and saved. -/
theorem Leaves.knownSaved {mark x : Nat} {temps : List Nat} {m : Source.Store} {d d₁ : Contents}
    (hmark : mark < registerCount) (hknown : Known L mark m d) (h : Leaves temps x d d₁)
    (htemps : ∀ a ∈ temps, register mark ≤ a ∧ a < addTable) :
    Known L mark m (d₁.write (register mark) addressSize (d₁.number immediate addressSize)) := by
  obtain ⟨-, -, hhigh⟩ := register_eq hmark
  refine hknown.mono (Nat.le_refl mark) (Nat.le_of_lt hmark) h.save fun a ha => ?_
  rcases List.mem_append.mp ha with ha | ha
  · exact htemps a ha
  · obtain ⟨i, hi, rfl⟩ := List.mem_map.mp ha
    have hi := List.mem_range.mp hi
    simp only [addressSize, registerSize] at hi hhigh
    omega

/-- Behind a store the low byte of its value is known where the pointer points to. -/
theorem Leaves.knownStored {r x y a : Nat} {temps temps' : List Nat} {m : Source.Store}
    {d d₁ d₂ : Contents} (hknown : Known L registerCount m d) (h : Leaves temps x d d₁)
    (h' : Leaves temps' y
      (d₁.write (register r) addressSize (d₁.number immediate addressSize)) d₂) :
    Known L registerCount
      ((L.world.forget m
        ((temps ++ (List.range addressSize).map (register r + ·)) ++ temps')).set
          a (UInt8.ofNat (y % 256)))
      (d₂.set a (d₂ immediate)) := by
  have hbyte : UInt8.ofNat (y % 256) = d₂ immediate := by
    rw [← h'.low, UInt8.ofNat_toNat]
  rw [hbyte]
  refine (hknown.forget (Nat.le_refl _) fun a ha htemp => ?_).set
  rw [List.mem_append, not_or] at htemp
  rw [h'.other a ha htemp.2]
  exact h.save a ha htemp.1

/-- A store writes the low byte of the value, if the pointer points to data; otherwise the run of
the source ends and nothing is said. -/
theorem store_compiles {vars : Variable → Prop} {target value : Expr}
    (htarget : target.Proper vars) (hproper : value.Proper vars) :
    Exec (store target value) s fun _ t =>
      Compiles L s.slots (Source.action L.world s.slots (.assign target value)) s t := by
  refine .good fun hgood => ?_
  unfold store
  split
  case h_2 => exact .throw
  rename_i pointer info
  refine .get ?_
  refine (expr_exec L htarget.2 (show s.slots.registers = _ from rfl) (Nat.le_refl _)).bind ?_
  intro _ u₁ _ _ hpointer
  refine (allocate_exec 1 info.site).bind fun r u₂ _ hgrows₂ hallocate => ?_
  obtain ⟨hstill, rfl, hmark₂, hcount⟩ := hallocate
  rw [hpointer.mark] at hmark₂ ⊢
  have hfree : s.mark < registerCount := by omega
  obtain ⟨-, -, hhigh⟩ := register_eq hfree
  have hsucc := register_succ hfree
  refine (save_exec L hfree (by decide)).bind fun _ u₃ _ hgrows₃ hsave => ?_
  obtain ⟨hkept₃, hmark₃, hsaved⟩ := hsave
  have hkept : Kept s u₃ := (hpointer.kept.trans hstill.kept).trans hkept₃
  have hnext : u₃.mark = s.mark + 1 := hmark₃.trans hmark₂
  have hregisters : s.slots.registers = u₃.bindings.registers :=
    (congrArg Bindings.registers hkept.bindings).symm
  refine (expr_exec L hproper hregisters (show s.mark ≤ u₃.mark by omega)).bind ?_
  intro _ u₄ _ hgrows₄ hvalue
  have htemps := hvalue.temps
  have hvalueDoes := hvalue.does
  rw [hnext] at htemps hvalueDoes
  refine (storeThrough_exec L hfree).bind fun _ u₅ _ hgrows₅ hstore => ?_
  obtain ⟨hkept₅, -, hstored⟩ := hstore
  refine (release_exec hgood.mark).mono fun _ t _ hgrows₆ hrelease => ?_
  obtain ⟨hstill₆, hmark₆⟩ := hrelease
  refine .of_kept (((hkept.trans hvalue.kept).trans hkept₅).trans hstill₆.kept) hmark₆
    fun rounds m d hknown => ?_
  -- from here on the code runs; until here it was emitted
  rw [Source.action]
  dsimp only
  rw [Source.assign]
  cases hx : Source.eval L.world s.slots m pointer with
  | none => trivial
  | some x =>
  cases hy : Source.eval L.world s.slots m value with
  | none => trivial
  | some y =>
  dsimp only
  unfold Source.storeByte
  split
  case isFalse => trivial
  rename_i hreaches
  have hdata := (isData_of_reaches (show s.mark + 1 ≤ registerCount from hfree) hreaches).1
  have hbelow := hgood.below hknown
  refine Does.follows ((hpointer.does m x d hbelow hx).trans (hgrows₂.trans (hgrows₃.trans
    (hgrows₄.trans (hgrows₅.trans hgrows₆)))) fun d₁ hd₁ => ?_)
  refine (hstill.does L d₁).trans (hgrows₃.trans (hgrows₄.trans (hgrows₅.trans hgrows₆))) ?_
  rintro _ rfl
  refine (hsaved d₁).trans (hgrows₄.trans (hgrows₅.trans hgrows₆)) ?_
  rintro d₃ rfl
  -- the pointer is in a register of its own, which the value does not read
  have hknown' := hd₁.knownSaved L hfree hbelow hpointer.temps
  refine (hvalueDoes m y _ hknown' hy).trans (hgrows₅.trans hgrows₆) fun d₄ hd₄ => ?_
  have haddress := hd₁.saved hfree hd₄ fun a ha => by
    have hrange := htemps a ha
    simp only [addressSize, registerSize] at hsucc ⊢
    omega
  refine (hstored d₄ _ haddress hdata).trans hgrows₆ ?_
  rintro _ rfl
  refine (hstill₆.does L _).mono ?_
  rintro - _ rfl
  exact hd₁.knownStored L hknown hd₄

end Emit

end ByteJump
