import ByteJump.Proofs.Emit.Calm
import ByteJump.Proofs.Run.Patched

set_option autoImplicit false

/-!
# Running what was emitted

Emitting keeps a state good: positions are those of the pieces, what the pieces write to stands
among them, and a byte constant is where it is remembered.  What is emitted from one state to
another does something when it runs: from where the first stands to where the second stands, in any
linked code that goes on from there.

`Exec x s Q` is the triple of these modules: from a good state, if emitting ends well, it ends in
a good state that the first one grows to, with `Q`.  `Does L s t d Q` is about running: if the
state `t` leads on into the linked code, the machine gets from the place of `s` to the place of
`t`, and the data `d` is changed to something with `Q`.  A property of code is stated as an `Exec`
with a `Does` in its postcondition, and the rules for binds put such properties behind each other.
-/

namespace ByteJump

namespace Emit

open Assembly Memory

variable {L : Linked} {α β : Type}

/-! ## Good states -/

/-- The byte with the value is a piece of its own at the address. -/
def ByteAt (pieces : List Piece) (address : Nat) (value : UInt8) : Prop :=
  ∃ before behind, pieces = before ++ .bytes [value] :: behind ∧ address = codeStart + size before

/-- The string is a piece of its own at the address. -/
def TextAt (pieces : List Piece) (address : Nat) (text : String) : Prop :=
  ∃ before behind, pieces = before ++ .bytes text.toUTF8.toList :: behind ∧
    address = codeStart + size before

/-- The state is one that emitting can lead to. -/
structure Good (s : State) : Prop where
  position : s.position = codeStart + size s.pieces.toList
  closed : Closed codeStart s.pieces.toList
  bytes : ∀ value a, s.byteConstants.lookup value = some a →
    a < s.position ∧ a ∉ destinations s.pieces.toList ∧ ByteAt s.pieces.toList a value
  mark : s.mark ≤ registerCount
  points : ∀ n, (s.points.lookup n).isSome = true → n ≤ s.serial

/-- Before any code there is nothing that could be wrong. -/
theorem good_start (b : Bindings) : Good (.start b) :=
  ⟨rfl, nofun, nofun, Nat.zero_le _, nofun⟩

/-- Code was emitted that writes to itself only, and what was placed stays where it is. -/
structure Grows (s t : State) : Prop where
  code : ∃ more, t.pieces.toList = s.pieces.toList ++ more ∧
    t.position = s.position + size more ∧ Closed s.position more
  strings : ∀ text a, s.strings.lookup text = some a → t.strings.lookup text = some a
  texts : ∀ text a, t.strings.lookup text = some a →
    s.strings.lookup text = some a ∨ TextAt t.pieces.toList a text
  points : ∀ n a, s.points.lookup n = some a → t.points.lookup n = some a

theorem Grows.refl (s : State) : Grows s s :=
  ⟨⟨[], by simp, by simp [size], nofun⟩, fun _ _ h => h, fun _ _ h => .inl h, fun _ _ h => h⟩

/-- Growth goes on. -/
theorem Grows.trans {s t u : State} (h : Grows s t) (h' : Grows t u) : Grows s u := by
  obtain ⟨more, hpieces, hposition, hclosed⟩ := h.code
  obtain ⟨more', hpieces', hposition', hclosed'⟩ := h'.code
  refine ⟨⟨more ++ more', ?_, ?_, ?_⟩, fun text a ha => h'.strings text a (h.strings text a ha),
    fun text a ha => ?_, fun n a ha => h'.points n a (h.points n a ha)⟩
  · rw [hpieces', hpieces, List.append_assoc]
  · rw [hposition', hposition, size_append, Nat.add_assoc]
  · rw [hposition] at hclosed'
    exact hclosed.append hclosed'
  · rcases h'.texts text a ha with hold | hnew
    · refine (h.texts text a hold).imp id ?_
      rintro ⟨before, behind, hold, haddress⟩
      exact ⟨before, behind ++ more', by rw [hpieces', hold]; simp, haddress⟩
    · exact .inr hnew

theorem Grows.position_le {s t : State} (h : Grows s t) : s.position ≤ t.position := by
  obtain ⟨more, -, hposition, -⟩ := h.code
  omega

/-- The linked code goes on from the state. -/
structure Leads (L : Linked) (t : State) : Prop where
  code : ∃ behind, L.pieces = t.pieces.toList ++ behind ∧ Closed t.position behind
  strings : ∀ text a, t.strings.lookup text = some a → L.world.string text = a
  points : ∀ n a, t.points.lookup n = some a → L.points n = a

/-- Code that a state grows to leads on for the state as well. -/
theorem Leads.before {s t : State} (h : Grows s t) (hleads : Leads L t) : Leads L s := by
  obtain ⟨more, hpieces, hposition, hclosed⟩ := h.code
  obtain ⟨behind, hbehind, hclosed'⟩ := hleads.code
  refine ⟨⟨more ++ behind, ?_, ?_⟩, fun text a ha => hleads.strings text a (h.strings text a ha),
    fun n a ha => hleads.points n a (h.points n a ha)⟩
  · rw [hbehind, hpieces, List.append_assoc]
  · rw [hposition] at hclosed'
    exact hclosed.append hclosed'

/-! ## Bytes that do not change -/

/-- Nothing emitted so far writes to the byte, and nothing emitted later will. -/
def Steady (s : State) (a : Nat) : Prop :=
  a < codeStart ∨ a < s.position ∧ a ∉ destinations s.pieces.toList

/-- A byte constant stays what it is. -/
theorem Good.steady {s : State} {value : UInt8} {a : Nat} (h : Good s)
    (ha : s.byteConstants.lookup value = some a) : Steady s a :=
  Or.inr ⟨(h.bytes value a ha).1, (h.bytes value a ha).2.1⟩

theorem Leads.position_le {t : State} (h : Leads L t) (hgood : Good t) : t.position ≤ L.stop := by
  obtain ⟨behind, hpieces, -⟩ := h.code
  unfold Linked.stop
  rw [hgood.position, hpieces, size_append]
  omega

/-- A byte between two states that nothing between them writes to is not written to at all. -/
theorem Leads.kept {s t : State} {more : List Piece} {a : Nat} (hgood : Good s)
    (hpieces : t.pieces.toList = s.pieces.toList ++ more)
    (hposition : t.position = s.position + size more) (hleads : Leads L t)
    (hlow : s.position ≤ a) (hhigh : a < t.position) (hmore : a ∉ destinations more) :
    a ∉ destinations L.pieces := by
  have hcode := Linked.addTable_lt_codeStart
  have hstart := hgood.position
  obtain ⟨behind, hbehind, hclosed⟩ := hleads.code
  intro hmem
  rw [hbehind, hpieces, destinations_append, destinations_append] at hmem
  rcases List.mem_append.mp hmem with hmem | hmem
  · rcases List.mem_append.mp hmem with hmem | hmem
    · rcases hgood.closed a hmem with h | h <;> omega
    · exact hmore hmem
  · rcases hclosed a hmem with h | h <;> omega

theorem Leads.steady {t : State} {a : Nat} (h : Leads L t) (hgood : Good t) (ha : Steady t a) :
    L.IsData a ∨ addTable ≤ a ∧ a < L.stop ∧ a ∉ destinations L.pieces := by
  have hcode := Linked.addTable_lt_codeStart
  have hstop := h.position_le hgood
  have hstart := hgood.position
  obtain ⟨behind, hpieces, hclosed⟩ := h.code
  rcases Nat.lt_or_ge a addTable with hlow | hlow
  · exact Or.inl (Or.inl hlow)
  refine Or.inr ⟨hlow, ?_, fun hmem => ?_⟩
  · rcases ha with h | h <;> omega
  rw [hpieces, destinations_append] at hmem
  rcases List.mem_append.mp hmem with hmem | hmem
  · rcases ha with hless | ⟨-, hkept⟩
    · rcases hgood.closed a hmem with h | h <;> omega
    · exact hkept hmem
  · rcases hclosed a hmem with h | h
    · omega
    · rcases ha with hless | ⟨hless, -⟩ <;> omega

/-- What stays in front of more code stays. -/
theorem Steady.mono {s t : State} {a : Nat} (hgood : Good s) (h : Grows s t) (ha : Steady s a) :
    Steady t a := by
  have hcode := Linked.addTable_lt_codeStart
  have hstart := hgood.position
  obtain ⟨more, hpieces, hposition, hclosed⟩ := h.code
  rcases Nat.lt_or_ge a codeStart with hlow | hlow
  · exact Or.inl hlow
  rcases ha with hless | ⟨hless, hkept⟩
  · omega
  refine Or.inr ⟨by omega, fun hmem => ?_⟩
  rw [hpieces, destinations_append] at hmem
  rcases List.mem_append.mp hmem with hmem | hmem
  · exact hkept hmem
  · rcases hclosed a hmem with h | h <;> omega

/-! ## Rules for emitting -/

/-- Emitting from a good state leads to a good state, and then `Q` holds; a fault is not looked
at. -/
structure Exec (x : Emitter α) (s : State) (Q : α → State → Prop) : Prop where
  run : Good s → ∀ a t, x s = .ok a t → Good t ∧ Grows s t ∧ Q a t

section Rules

variable {s : State} {Q : α → State → Prop}

theorem Exec.pure {a : α} (h : Q a s) : Exec (Pure.pure a) s Q := by
  refine ⟨fun hgood b t hrun => ?_⟩
  cases hrun
  exact ⟨hgood, .refl s, h⟩

theorem Exec.throw {e : Fault} : Exec (MonadExcept.throw e) s Q := by
  refine ⟨fun hgood b t hrun => ?_⟩
  cases hrun

theorem Exec.get {f : State → Emitter α} (h : Exec (f s) s Q) :
    Exec (MonadState.get >>= f) s Q := ⟨h.run⟩

theorem Exec.position {f : Nat → Emitter α} (h : Exec (f s.position) s Q) :
    Exec (Emit.position >>= f) s Q := ⟨h.run⟩

/-- The second part starts in a good state. -/
theorem Exec.bind {x : Emitter β} {f : β → Emitter α} {P : β → State → Prop} (h : Exec x s P)
    (hf : ∀ b u, Good u → Grows s u → P b u → Exec (f b) u Q) : Exec (x >>= f) s Q := by
  refine ⟨fun hgood a t hrun => ?_⟩
  obtain ⟨b, u, hx, hrun⟩ := ok_bind hrun
  obtain ⟨hgood', hgrows, hP⟩ := h.run hgood b u hx
  obtain ⟨hgood'', hgrows', hQ⟩ := (hf b u hgood' hgrows hP).run hgood' a t hrun
  exact ⟨hgood'', hgrows.trans hgrows', hQ⟩

/-- What is said of the result is weakened. -/
theorem Exec.mono {x : Emitter α} {P : α → State → Prop} (h : Exec x s P)
    (hPQ : ∀ a t, Good t → Grows s t → P a t → Q a t) : Exec x s Q := by
  refine ⟨fun hgood a t hrun => ?_⟩
  obtain ⟨hgood', hgrows, hP⟩ := h.run hgood a t hrun
  exact ⟨hgood', hgrows, hPQ a t hgood' hgrows hP⟩

/-- The state is good to begin with. -/
theorem Exec.good {x : Emitter α} (h : Good s → Exec x s Q) : Exec x s Q :=
  ⟨fun hgood => (h hgood).run hgood⟩

end Rules

/-! ## What was emitted does -/

/-- What was emitted between two states makes `Q` true of the data. -/
structure Does (L : Linked) (s t : State) (d : Contents) (Q : Contents → Prop) : Prop where
  run : Leads L t → ∀ c, L.Intact c → L.Shows d c →
    ∃ k c' d', Climbs L.size k c s.position c' t.position ∧ L.Intact c' ∧ L.Shows d' c' ∧ Q d'

section Does

variable {s t u : State} {d : Contents} {Q : Contents → Prop}

/-- No code does nothing. -/
theorem Does.nothing (hposition : t.position = s.position) (h : Q d) : Does L s t d Q := by
  refine ⟨fun _ c hintact hshows => ⟨0, c, d, ?_, hintact, hshows, h⟩⟩
  rw [hposition]
  exact .none c _

/-- One run behind the other. -/
theorem Does.trans {P : Contents → Prop} (h : Does L s u d P) (hgrows : Grows u t)
    (h' : ∀ d', P d' → Does L u t d' Q) : Does L s t d Q := by
  refine ⟨fun hleads c hintact hshows => ?_⟩
  obtain ⟨k, c', d', hclimbs, hintact', hshows', hP⟩ :=
    h.run (hleads.before hgrows) c hintact hshows
  obtain ⟨l, c'', d'', hclimbs', hintact'', hshows'', hQ⟩ :=
    (h' d' hP).run hleads c' hintact' hshows'
  exact ⟨k + l, c'', d'', hclimbs.trans hclimbs', hintact'', hshows'', hQ⟩

/-- The property behind the code is weakened. -/
theorem Does.mono {P : Contents → Prop} (h : Does L s t d P)
    (hPQ : Leads L t → ∀ d', P d' → Q d') : Does L s t d Q := by
  refine ⟨fun hleads c hintact hshows => ?_⟩
  obtain ⟨k, c', d', hclimbs, hintact', hshows', hP⟩ := h.run hleads c hintact hshows
  exact ⟨k, c', d', hclimbs, hintact', hshows', hPQ hleads d' hP⟩

end Does

end Emit

end ByteJump
